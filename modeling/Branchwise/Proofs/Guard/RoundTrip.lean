import Branchwise.Proofs.Guard.Recognition
import Mathlib.Tactic

/-!
# Expressions are read back from their texts

Plain texts are read as the expression that they write, and the text of an expression is one of
them. The one limit is that of decimal numerals: a numeral of more digits than are read makes the
whole text one that is refused.
-/

namespace Branchwise

open Number

/-! ## Decimal numerals -/

namespace Number

theorem ofDigits?_append_digit {base d n : Nat} {digits : List Char} {c : Char}
    (h : ofDigits? base digits = some n) (hc : Text.digitValue? c = some d) (hd : d < base) :
    ofDigits? base (digits ++ [c]) = some (n * base + d) := by
  unfold ofDigits? at h ⊢
  rw [List.foldlM_append, h]
  simp [hc, hd]

theorem ofDigits?_toDigits (n : Nat) : ofDigits? 10 (Nat.toDigits 10 n) = some n := by
  have hvalue : ∀ d < 10, Text.digitValue? (Nat.digitChar d) = some d := by decide
  induction n using Nat.strongRecOn with
  | ind n ih =>
    rw [Nat.toDigits_eq_if (by decide)]
    split
    · rename_i hlt
      have h : ofDigits? 10 ([] ++ [Nat.digitChar n]) = some (0 * 10 + n) :=
        ofDigits?_append_digit rfl (hvalue n hlt) hlt
      rwa [List.nil_append, Nat.zero_mul, Nat.zero_add] at h
    · rename_i hge
      have hlt : n % 10 < 10 := Nat.mod_lt n (by decide)
      rw [ofDigits?_append_digit (ih (n / 10) (by omega)) (hvalue _ hlt) hlt]
      congr 1
      omega

theorem head?_toDigits_ne_zero {n : Nat} (h : 0 < n) : (Nat.toDigits 10 n).head? ≠ some '0' := by
  induction n using Nat.strongRecOn with
  | ind n ih =>
    rw [Nat.toDigits_eq_if (by decide)]
    split
    · rw [List.head?_cons, ne_eq, Option.some.injEq, Nat.digitChar_eq_zero]
      omega
    · have hhead := ih (n / 10) (by omega) (by omega)
      obtain ⟨c, r, hcr⟩ := List.exists_cons_of_ne_nil (Nat.toDigits_ne_nil (b := 10) (n := n / 10))
      rw [hcr] at hhead ⊢
      exact hhead

theorem not_isOctal_toDigits (n : Nat) : ¬ Guard.IsOctal (Nat.toDigits 10 n) := by
  rintro ⟨d, r, heq⟩
  rcases Nat.eq_zero_or_pos n with rfl | hpos
  · cases heq
  · exact head?_toDigits_ne_zero hpos (by rw [heq]; rfl)

theorem toList_toString (n : Nat) : (toString n).toList = Nat.toDigits 10 n := by
  rw [Nat.toString_eq_ofList_toDigits, String.toList_ofList]

theorem length_toDigits_le_iff {n : Nat} :
    (Nat.toDigits 10 n).length ≤ maxDecimalDigits ↔ isWritable (n : Int) := by
  rw [isWritable, decide_eq_true_eq, Int.natAbs_natCast,
    Nat.length_toDigits_le_iff (by decide) (by decide), Nat.pow_eq]

end Number

/-! ## Plain expressions -/

namespace Expr

/-- Expressions of names, integers, truth values and operators.  The names are paths without blanks,
and a minus is not applied to a number. -/
def IsPlain : Expr → Prop
  | name x => Guard.Path x.toList x.toList
  | int _ | bool _ => True
  | real _ => False
  | unary .not e => e.IsPlain
  | unary .neg e => e.negated? = none ∧ e.IsPlain
  | binary _ l r => l.IsPlain ∧ r.IsPlain

@[simp]
theorem isWritable_int (n : Int) : (int n).isWritable = Number.isWritable n := by
  simp [isWritable, walk]

@[simp]
theorem isWritable_unary (op : UnaryOp) (e : Expr) : (unary op e).isWritable = e.isWritable := by
  simp [isWritable, walk]

@[simp]
theorem isWritable_binary (op : BinaryOp) (l r : Expr) :
    (binary op l r).isWritable = (l.isWritable && r.isWritable) := by
  simp [isWritable, walk]

end Expr

namespace Guard

variable {e : Expr} {s : List Char}

/-! ## What plain texts read as -/

/-- What a plain text of an expression reads as: the expression, or the fault of its first numeral
that is too long. -/
def plainReading : Expr → Reading
  | .int n =>
    if isWritable n then .ok (.int n)
    else .error (.tooLong (Nat.toDigits 10 n.natAbs).length)
  | .unary op e => (plainReading e).map (.unary op)
  | .binary op l r => joined op (plainReading l) (plainReading r)
  | e => .ok e

theorem plainReading_of_isWritable (h : e.isWritable) : plainReading e = .ok e := by
  induction e with
  | int n =>
    rw [Expr.isWritable_int] at h
    exact if_pos h
  | name _ | real _ | bool _ => rfl
  | unary op e ih =>
    rw [plainReading, ih h]
    rfl
  | binary op l r ihl ihr =>
    rw [Expr.isWritable_binary, Bool.and_eq_true] at h
    rw [plainReading, ihl h.1, ihr h.2]
    rfl

theorem plainReading_of_not_isWritable (h : e.isWritable = false) :
    ∃ fault, plainReading e = .error fault := by
  induction e with
  | int n =>
    rw [Expr.isWritable_int] at h
    exact ⟨_, if_neg (by rw [h]; decide)⟩
  | name _ | real _ | bool _ => simp [Expr.isWritable, Expr.walk] at h
  | unary op e ih =>
    obtain ⟨fault, he⟩ := ih h
    exact ⟨fault, by rw [plainReading, he]; rfl⟩
  | binary op l r ihl ihr =>
    rw [Expr.isWritable_binary, Bool.and_eq_false_iff] at h
    cases hl : l.isWritable with
    | false =>
      obtain ⟨fault, he⟩ := ihl hl
      exact ⟨fault, by rw [plainReading, he]; rfl⟩
    | true =>
      have hr : r.isWritable = false := h.resolve_left (by rw [hl]; decide)
      obtain ⟨fault, he⟩ := ihr hr
      exact ⟨fault, by rw [plainReading, plainReading_of_isWritable hl, he]; rfl⟩

theorem digitsReading_toDigits (n : Nat) :
    digitsReading (Nat.toDigits 10 n) = plainReading (.int n) := by
  rw [digitsReading_decimal (not_isOctal_toDigits n),
    takeWhile_isDigit (ofDigits?_toDigits n), plainReading, Int.natAbs_natCast]
  cases hlong : isWritable n with
  | true =>
    rw [if_neg (Nat.not_lt.2 (length_toDigits_le_iff.2 hlong))]
    exact reading_eq_ok_iff.2 ⟨n, ofDigits?_toDigits n, rfl⟩
  | false =>
    have hlt : maxDecimalDigits < (Nat.toDigits 10 n).length := by
      rw [← Nat.not_le, length_toDigits_le_iff, hlong]
      decide
    rw [if_pos hlt, if_neg (by decide)]

theorem PlainLiteral.opens (h : PlainLiteral s e) : OpensWith opensAtom s := by
  cases h with
  | numeral n =>
    rw [toList_toString]
    exact (OpensWith.of_forall Nat.toDigits_ne_nil (isLiteralDigit_of_ofDigits?
      (ofDigits?_toDigits n))).imp fun _ => opensAtom_of_isLiteralDigit
  | bool b => exact (Literal.bool b).opens

theorem PlainLiteral.atom?_append {k : Nat} {rest : List Char} (h : PlainLiteral s e)
    (hrest : MayFollow k rest) : atom? (s ++ rest) = some (plainReading e, rest) := by
  cases h with
  | numeral n =>
    rw [toList_toString, ← digitsReading_toDigits]
    exact atom?_digits Nat.toDigits_ne_nil (isLiteralDigit_of_ofDigits? (ofDigits?_toDigits n))
      (fun _ h => absurd h List.not_mem_nil) hrest.stops
  | bool b => exact (Literal.bool b).atom?_append hrest

theorem plainReading_of_negated? {e' : Expr} (h : e.negated? = some e') :
    plainReading e' = (plainReading e).map fun _ => e' := by
  cases e with
  | int n =>
    cases h
    have hlong : isWritable (-n) = isWritable n := by
      rw [isWritable, isWritable, Int.natAbs_neg]
    rw [plainReading, plainReading, hlong, Int.natAbs_neg]
    cases isWritable n with
    | true => rfl
    | false => rfl
  | real x =>
    cases h
    rfl
  | name _ | bool _ | unary _ _ | binary _ _ _ => exact absurd h nofun

theorem Style.plain_readsAs : Style.plain.ReadsAs plainReading where
  opens _ _ := PlainLiteral.opens
  literal := PlainLiteral.atom?_append
  ok_or_error e := by
    cases h : e.isWritable with
    | true => exact .inl (plainReading_of_isWritable h)
    | false => exact .inr (plainReading_of_not_isWritable h)
  name _ := rfl
  unary _ _ := rfl
  negated := plainReading_of_negated?
  binary _ _ _ := rfl

theorem Renders.parse_eq_ok_iff {text : String} (h : Renders .plain text e) :
    parse text = .ok e ↔ e.isWritable := by
  rw [h.parse_eq Style.plain_readsAs]
  cases hlong : e.isWritable with
  | true =>
    rw [plainReading_of_isWritable hlong]
    exact ⟨fun _ => rfl, fun _ => rfl⟩
  | false =>
    obtain ⟨fault, hfault⟩ := plainReading_of_not_isWritable hlong
    rw [hfault]
    exact ⟨nofun, nofun⟩

/-! ## Texts of expressions -/

theorem PlainLiteral.written (h : PlainLiteral s e) : Written .plain 6 s e :=
  (Written.literal (v := .plain) h).looser

theorem written_int (n : Int) : Written .plain 6 (toString n).toList (.int n) := by
  cases n with
  | ofNat n => exact (PlainLiteral.numeral n).written
  | negSucc n =>
    have hnumeral := PlainLiteral.numeral (n + 1)
    have hfold := Written.fold .nil hnumeral.written (.inr hnumeral) rfl
    have htext : (toString (Int.negSucc n)).toList = '-' :: ([] ++ (toString (n + 1)).toList) := by
      rw [show toString (Int.negSucc n) = "-" ++ toString (n + 1) from rfl, String.toList_append]
      rfl
    rw [htext]
    exact hfold

theorem written_text {e : Expr} (h : e.IsPlain) : Written .plain 6 e.text.toList e := by
  induction e with
  | name x =>
    have hname := Written.name (v := .plain) h
    rw [String.ofList_toList] at hname
    exact hname.looser
  | int n => exact written_int n
  | real x => exact absurd h id
  | bool b => exact (PlainLiteral.bool b).written
  | unary op e ih =>
    rw [Expr.text, String.toList_append]
    cases op with
    | not => exact .not .nil (ih h)
    | neg => exact .neg .nil (ih h.2) h.1
  | binary op l r ihl ihr =>
    have hlevel : op.level < 6 := level_lt_levels op
    have hbinary := Written.binary .space .space ((ihl h.1).of_le (Nat.le_of_lt hlevel))
      ((ihr h.2).of_le hlevel)
    have hparen := Written.paren .nil .nil (hbinary.of_le (Nat.zero_le _))
    have htext : (Expr.binary op l r).text.toList = '(' :: ([] ++ ((l.text.toList ++
        ([' '] ++ (op.symbol.toList ++ ([' '] ++ r.text.toList)))) ++ ([] ++ [')']))) := by
      simp [Expr.text]
    rw [htext]
    exact hparen.looser

theorem renders_text {e : Expr} (h : e.IsPlain) : Renders .plain e.text e :=
  ⟨[], _, [], .nil, .nil, (List.append_nil _).symm, (written_text h).of_le (Nat.zero_le _)⟩

/-! ## The grammar and the parser -/

/-- **The parser recognises the grammar.**  A plain text of an expression, with whatever blanks and
redundant parentheses, is read as that expression, unless a numeral is too long; the text of an
expression is such a text.  A text is read as an expression exactly if it writes it in the full
style, where literals have other spellings and signs may be spent freely. -/
theorem parse_recognises_grammar (text : String) (e : Expr) :
    (Renders .plain text e → (parse text = .ok e ↔ e.isWritable = true)) ∧
      (e.IsPlain → Renders .plain e.text e ∧ (parse e.text = .ok e ↔ e.isWritable = true)) ∧
      (parse text = .ok e ↔ Renders .full text e) :=
  ⟨fun h => h.parse_eq_ok_iff, fun h => ⟨renders_text h, (renders_text h).parse_eq_ok_iff⟩,
    parse_eq_ok_iff⟩

def sampleGuard : Expr :=
  .binary .or (.unary .not (.binary .le (.name "p->len") (.int (-5)))) (.bool true)

theorem path_sample : Path "p->len".toList "p->len".toList := by
  have hp : IsIdentifier ['p'] := ⟨'p', [], rfl, by decide, fun _ => eq_true_of_mem rfl⟩
  have hlen : IsIdentifier ['l', 'e', 'n'] :=
    ⟨'l', ['e', 'n'], rfl, by decide, fun _ => eq_true_of_mem (by decide)⟩
  exact .mk hp (by decide) (by decide) (.member (.inr rfl) .nil .nil hlen .nil)

theorem renders_sample : Renders .plain " !( p->len<=- 5)||true " sampleGuard := by
  have hname : Written .plain 3 "p->len".toList (.name "p->len") :=
    (Written.name path_sample).of_le (by decide)
  have hfive : Written .plain 4 ('-' :: ([' '] ++ ['5'])) (.int (-5)) :=
    (Written.fold .space (PlainLiteral.numeral 5).written (.inr (.numeral 5)) rfl).of_le (by decide)
  have hle : Written .plain (BinaryOp.level .le) _ (.binary .le (.name "p->len") (.int (-5))) :=
    .binary .nil .nil hname hfive
  have hnot := Written.not .nil (Written.paren .space .nil (hle.of_le (by decide))).looser
  have hor : Written .plain (BinaryOp.level .or) _ sampleGuard :=
    .binary .nil .nil (hnot.of_le (by decide))
      ((PlainLiteral.bool true).written.of_le (by decide))
  exact ⟨[' '], _, [' '], .space, .space, rfl, hor⟩

theorem parse_recognises_grammar_sample :
    Renders .plain " !( p->len<=- 5)||true " sampleGuard ∧ sampleGuard.IsPlain ∧
      sampleGuard.isWritable = true ∧ parse " !( p->len<=- 5)||true " = .ok sampleGuard ∧
      parse sampleGuard.text = .ok sampleGuard := by
  have hplain : sampleGuard.IsPlain := ⟨⟨path_sample, trivial⟩, trivial⟩
  have hlong : sampleGuard.isWritable := by decide +kernel
  obtain ⟨hread, htext, -⟩ := parse_recognises_grammar " !( p->len<=- 5)||true " sampleGuard
  exact ⟨renders_sample, hplain, hlong, (hread renders_sample).2 hlong, (htext hplain).2.2 hlong⟩

/-- The negation of the least number of one digit more than are read: its plain text is not read as
it. -/
theorem renders_not_parse_long_numeral :
    Renders .plain ("!" ++ toString (10 ^ Number.maxDecimalDigits))
        (.unary .not (.int (10 ^ Number.maxDecimalDigits : Nat))) ∧
      parse ("!" ++ toString (10 ^ Number.maxDecimalDigits)) ≠
        .ok (.unary .not (.int (10 ^ Number.maxDecimalDigits : Nat))) := by
  have hplain : Expr.IsPlain (.unary .not (.int (10 ^ Number.maxDecimalDigits : Nat))) := trivial
  have hlong : Number.isWritable (10 ^ Number.maxDecimalDigits : Nat) = false := by
    simp only [Number.isWritable, Int.natAbs_natCast, Nat.pow_eq, lt_self_iff_false, decide_false]
  have hrenders := renders_text hplain
  refine ⟨hrenders, fun h => ?_⟩
  have hwritable := hrenders.parse_eq_ok_iff.1 h
  rw [Expr.isWritable_unary, Expr.isWritable_int, hlong] at hwritable
  exact absurd hwritable (by decide)

end Guard

end Branchwise
