import Branchwise.Proofs.Data.Outcome
import Branchwise.Proofs.Guard.Recognition

/-!
# Guards put together from texts

What a guard that is built from texts is read as depends on where those texts end when they are read
again.  In parentheses a text ends where it should if its own parentheses are balanced.  Beside a
bare operator it ends where its own operators bind less.
-/

namespace Branchwise.Guard

open List BinaryOp Guard Text Written

open Text (isBlank isWhiteSpace isLiteralDigit isNameStart isNameChar isWord)

variable {c : Char} {s x u b₁ b₂ rest : List Char} {t : String} {ts : List String} {e : Expr}
  {k : Nat}
variable {q : List Char} {r : Expr}

/-! ## Character literals -/

/-- The forms of a character literal, with an escape that is known or one that is not. -/
inductive Quoted : List Char → Prop
  | plain {c : Char} (hescape : c ≠ '\\') (hquote : c ≠ '\'') : Quoted ['\'', c, '\'']
  | escape {c : Char} (hline : c ≠ '\n') : Quoted ['\'', '\\', c, '\'']

theorem quoted_of_char? {x : Reading} (h : char? s = some (x, rest)) :
    ∃ q, Quoted q ∧ s = q ++ rest := by
  unfold char? at h
  split at h
  · rename_i c r
    split at h
    · cases h
    · rename_i hline
      refine ⟨['\'', '\\', c, '\''], .escape hline, ?_⟩
      cases hcode : escapeCode? c <;> rw [hcode] at h <;> cases h <;> rfl
  · rename_i c r _
    split at h
    · cases h
    · rename_i hc
      have hplain : c ≠ '\\' ∧ c ≠ '\'' := by simpa using hc
      cases h
      exact ⟨['\'', c, '\''], .plain hplain.1 hplain.2, rfl⟩
  · cases h

theorem Quoted.char?_append (h : Quoted q) (rest : List Char) :
    ∃ x, char? (q ++ rest) = some (x, rest) := by
  cases h with
  | plain hescape hquote => exact ⟨_, char?_char hescape hquote rest⟩
  | @escape c hline =>
    cases hcode : escapeCode? c with
    | some n => exact ⟨_, char?_escape hcode rest⟩
    | none =>
      refine ⟨.error (.unknownEscape (String.ofList ['\\', c])), ?_⟩
      show char? ('\'' :: '\\' :: c :: '\'' :: rest) = _
      rw [char?, if_neg hline, hcode]

theorem Quoted.length_pos (h : Quoted q) : 0 < q.length := by
  cases h <;> exact Nat.succ_pos _

theorem char?_eq_none (hc : c ≠ '\'') (r : List Char) : char? (c :: r) = none := by
  cases h : char? (c :: r) with
  | none => rfl
  | some p =>
    obtain ⟨q, hq, heq⟩ := quoted_of_char? h
    cases hq <;> exact absurd (cons.inj heq).1 hc

theorem length_lt_of_char? {x : Reading} (h : char? s = some (x, rest)) :
    rest.length < s.length := by
  obtain ⟨q, hq, rfl⟩ := quoted_of_char? h
  have hpos := hq.length_pos
  rw [length_append]
  omega

theorem char?_append_close_eq_none (h : char? (c :: s) = none) (hrest : Stops (· == '\'') rest) :
    char? (c :: (s ++ ')' :: rest)) = none := by
  have hfirst : ∀ r, rest ≠ '\'' :: r := fun r hr => absurd (hrest _ r hr) (by decide)
  cases hlit : char? (c :: (s ++ ')' :: rest)) with
  | none => rfl
  | some p =>
    obtain ⟨q, hq, heq⟩ := quoted_of_char? hlit
    -- A literal that ends in `s` stands at the front of `s` alone, too.
    have hinside : ∀ r, c :: s ≠ q ++ r := by
      intro r hr
      obtain ⟨x, hx⟩ := hq.char?_append r
      rw [← hr, h] at hx
      cases hx
    cases hq with
    | plain hescape hquote =>
      match s with
      | [] | [_] => simp_all
      | _ :: _ :: r => exact absurd (by simp_all) (hinside r)
    | escape hline =>
      match s with
      | [] | [_] | [_, _] => simp_all
      | _ :: _ :: _ :: r => exact absurd (by simp_all) (hinside r)

/-! ## Parentheses -/

/-- How many parentheses are open behind a text if some are in front of it; none if the text closes
one that is not open.  Those in character literals do not count. -/
def openAfter (depth : Nat) (s : List Char) : Option Nat :=
  match s with
  | [] => some depth
  | c :: r =>
    match _h : char? (c :: r) with
    | some (_, rest) => openAfter depth rest
    | none =>
      if c = '(' then openAfter (depth + 1) r
      else if c = ')' then if depth = 0 then none else openAfter (depth - 1) r
      else openAfter depth r
termination_by s.length
decreasing_by
  · exact length_lt_of_char? _h
  all_goals exact Nat.lt_succ_self _

/-- A text whose parentheses outside character literals are balanced. -/
def Balanced (text : String) : Prop := openAfter 0 text.toList = some 0

instance (text : String) : Decidable (Balanced text) :=
  inferInstanceAs (Decidable (openAfter 0 text.toList = some 0))

theorem Quoted.openAfter_append (h : Quoted q) (depth : Nat) (rest : List Char) :
    openAfter depth (q ++ rest) = openAfter depth rest := by
  obtain ⟨x, hx⟩ := h.char?_append rest
  rw [openAfter.eq_def]
  split
  · rename_i heq
    rw [heq] at hx
    cases hx
  · rename_i heq
    rw [heq] at hx
    split
    · rename_i hlit
      rw [hx] at hlit
      cases hlit
      rfl
    · rename_i hlit
      rw [hx] at hlit
      cases hlit

theorem openAfter_cons {depth : Nat} {r : List Char} (h : char? (c :: r) = none) :
    openAfter depth (c :: r) =
      if c = '(' then openAfter (depth + 1) r
      else if c = ')' then if depth = 0 then none else openAfter (depth - 1) r
      else openAfter depth r := by
  rw [openAfter.eq_def]
  split
  · rename_i heq
    cases heq
  · rename_i heq
    cases heq
    split
    · rename_i hlit
      rw [h] at hlit
      cases hlit
    · rfl

theorem openAfter_close_zero (r : List Char) : openAfter 0 (')' :: r) = none :=
  openAfter_cons (char?_eq_none (by decide) r)

theorem openAfter_append_close (hrest : Stops (· == '\'') rest) (depth : Nat) (s : List Char) :
    openAfter depth (s ++ ')' :: rest) =
      (openAfter depth s).bind fun d => openAfter d (')' :: rest) := by
  fun_induction openAfter depth s with
  | case1 depth => rfl
  | case2 depth c r x rest' hlit ih =>
    obtain ⟨q, hq, heq⟩ := quoted_of_char? hlit
    rw [heq, append_assoc, hq.openAfter_append]
    exact ih
  | case3 depth r hlit ih =>
    rw [cons_append, openAfter_cons (char?_append_close_eq_none hlit hrest)]
    exact ih
  | case4 r hlit _ =>
    rw [cons_append, openAfter_cons (char?_append_close_eq_none hlit hrest)]
    rfl
  | case5 depth r hdepth hlit _ ih =>
    rw [cons_append, openAfter_cons (char?_append_close_eq_none hlit hrest)]
    simpa [hdepth] using ih
  | case6 depth c r hlit hopen hclose ih =>
    rw [cons_append, openAfter_cons (char?_append_close_eq_none hlit hrest), if_neg hopen,
      if_neg hclose]
    exact ih

/-- A text that closes the parentheses that it opens and no others, whatever comes behind it. -/
def Neutral (s : List Char) : Prop :=
  ∀ depth rest, openAfter depth (s ++ rest) = openAfter depth rest

theorem Neutral.nil : Neutral [] := fun _ _ => rfl

theorem Neutral.append {t : List Char} (hs : Neutral s) (ht : Neutral t) : Neutral (s ++ t) := by
  intro depth rest
  rw [append_assoc, hs, ht]

theorem Neutral.paren (h : Neutral s) : Neutral ('(' :: (s ++ [')'])) := by
  intro depth rest
  rw [cons_append, append_assoc, openAfter_cons (char?_eq_none (by decide) _),
    h, singleton_append, openAfter_cons (char?_eq_none (by decide) _)]
  rfl

theorem Quoted.neutral (h : Quoted q) : Neutral q :=
  fun depth rest => h.openAfter_append depth rest

def nesting : List Char := ['(', ')', '\'']

theorem Neutral.of_forall (h : ∀ c ∈ s, c ∉ nesting) : Neutral s := by
  induction s with
  | nil => exact .nil
  | cons c s ih =>
    rw [forall_mem_cons] at h
    obtain ⟨hopen, hclose, hquote⟩ : c ≠ '(' ∧ c ≠ ')' ∧ c ≠ '\'' := by
      simpa [nesting] using h.1
    intro depth rest
    rw [cons_append, openAfter_cons (char?_eq_none hquote _), if_neg hopen, if_neg hclose]
    exact ih h.2 depth rest

theorem Neutral.of_all (h : s.all (fun c => decide (c ∉ nesting))) : Neutral s :=
  .of_forall fun c hc => of_decide_eq_true (all_eq_true.mp h c hc)

theorem Neutral.of_class {p : Char → Bool} (hp : nesting.any p = false) (h : ∀ c ∈ s, p c) :
    Neutral s := by
  refine .of_forall fun c hc hmem => ?_
  have hpc := h c hc
  rw [eq_false_of_mem hp hmem] at hpc
  cases hpc

/-- Between the parentheses around a balanced text stands that text and nothing else: the first
closing parenthesis behind a text that is neutral is the one behind the balanced text. -/
theorem eq_of_append_close {t p rest' : List Char} (ht : openAfter 0 t = some 0) (hp : Neutral p)
    (hrest : Stops (· == '\'') rest) (h : t ++ ')' :: rest = p ++ ')' :: rest') :
    t = p ∧ rest = rest' := by
  rcases append_eq_append_iff.mp h with ⟨u, rfl, hu⟩ | ⟨u, rfl, hu⟩
  · cases u with
    | nil => exact ⟨(append_nil t).symm, (cons.inj hu).2⟩
    | cons c u =>
      -- `p` would go on behind `t` with a parenthesis that it does not open.
      obtain ⟨rfl, rfl⟩ := cons.inj hu
      have hstops : Stops (· == '\'') u := fun c r hr =>
        hrest c (r ++ ')' :: rest') (by rw [hr]; rfl)
      have hzero := hp 0 []
      rw [append_nil, openAfter_append_close hstops, ht, Option.bind_some,
        openAfter_close_zero, openAfter] at hzero
      cases hzero
  · cases u with
    | nil => exact ⟨List.append_nil p, (cons.inj hu).2.symm⟩
    | cons c u =>
      obtain ⟨rfl, rfl⟩ := cons.inj hu
      rw [hp, openAfter_close_zero] at ht
      cases ht

/-! ## Expressions are neutral -/

theorem Blanks.append {a b : List Char} (ha : Blanks a) (hb : Blanks b) : Blanks (a ++ b) :=
  forall_mem_append.mpr ⟨ha, hb⟩

theorem Blanks.neutral {b : List Char} (h : Blanks b) : Neutral b :=
  .of_class (p := isWhiteSpace) (by decide) h

theorem IsIdentifier.neutral (h : IsIdentifier x) : Neutral x :=
  .of_class (p := Text.isNameChar) (by decide) h.isNameChar

theorem neutral_of_isLiteralDigit (h : ∀ c ∈ s, isLiteralDigit c) : Neutral s :=
  .of_class (p := isLiteralDigit) (by decide) h

theorem IsExponent.neutral (h : IsExponent x) : Neutral x := by
  obtain ⟨hmark, hsign, -, hdigits⟩ := h
  refine .append (s := [_]) ?_ (.append ?_ (neutral_of_isLiteralDigit hdigits))
  · rcases hmark with rfl | rfl <;> exact .of_all (by decide)
  · rcases hsign with rfl | rfl | rfl <;> exact .of_all (by decide)

theorem IsReal.neutral (h : IsReal s) : Neutral s := by
  cases h with
  | point hwhole hfraction _ hexponent =>
    refine (neutral_of_isLiteralDigit hwhole).append (.append (s := ['.']) (.of_all (by decide)) ?_)
    refine (neutral_of_isLiteralDigit hfraction).append ?_
    rcases hexponent with rfl | hexponent
    · exact .nil
    · exact hexponent.neutral
  | exponent hwhole _ hexponent => exact (neutral_of_isLiteralDigit hwhole).append hexponent.neutral

theorem Literal.neutral (h : Literal s e) : Neutral s := by
  cases h with
  | decimal _ _ _ hvalue hsuffix | octal _ hvalue hsuffix =>
    exact (neutral_of_isLiteralDigit (isLiteralDigit_of_ofDigits? hvalue)).append
      (.of_class (p := isIntSuffix) (by decide) hsuffix)
  | hexadecimal hmark _ hdigits _ hsuffix =>
    refine .append (s := ['0', _]) ?_ (.append ?_ ?_)
    · rcases hmark with rfl | rfl <;> exact .of_all (by decide)
    · exact .of_class (p := fun c => (hexValue? c).isSome) (by decide) hdigits
    · exact .of_class (p := isIntSuffix) (by decide) hsuffix
  | real hnumber _ _ hsuffix =>
    exact hnumber.neutral.append (.of_class (p := isRealSuffix) (by decide) hsuffix)
  | char hescape hquote => exact (Quoted.plain hescape hquote).neutral
  | escape hcode =>
    refine (Quoted.escape ?_).neutral
    rintro rfl
    cases hcode
  | bool b => cases b <;> exact .of_all (by decide)

theorem Steps.neutral {t : List Char} (h : Steps s t) : Neutral s := by
  induction h with
  | nil => exact .nil
  | member ha h1 h2 hx _ ih =>
    refine h1.neutral.append (.append ?_ (h2.neutral.append (hx.neutral.append ih)))
    rcases ha with rfl | rfl <;> exact .of_all (by decide)
  | index h1 h2 h3 _ hi _ ih =>
    have hindex := Neutral.of_class (p := isNameChar) (by decide) hi
    have hclose : Neutral [']'] := .of_all (by decide)
    refine h1.neutral.append (.append (s := ['[']) (.of_all (by decide)) ?_)
    exact h2.neutral.append (hindex.append (h3.neutral.append (hclose.append ih)))

theorem Path.neutral (h : Path s x) : Neutral s := by
  obtain ⟨hx, -, -, hs⟩ := h
  exact hx.neutral.append hs.neutral

theorem neutral_symbol (op : BinaryOp) : Neutral op.symbol.toList := by
  cases op <;> exact .of_all (by decide)

theorem Written.neutral (h : Written .full k s e) : Neutral s := by
  induction h with
  | literal h => exact Literal.neutral h
  | name h => exact h.neutral
  | @paren b₁ s b₂ _ h1 h2 _ ih =>
    have hparen := (h1.neutral.append (ih.append h2.neutral)).paren
    simpa only [append_assoc] using hparen
  | not hb _ ih | neg hb _ _ ih | fold hb _ _ _ ih | plus hb _ _ ih =>
    exact .append (s := [_]) (.of_all (by decide)) (hb.neutral.append ih)
  | binary h1 h2 _ _ ihl ihr =>
    exact ihl.append (h1.neutral.append ((neutral_symbol _).append (h2.neutral.append ihr)))
  | looser _ ih => exact ih

theorem balanced_of_parse {text : String} (h : parse text = .ok e) : Balanced text := by
  obtain ⟨b₁, s, b₂, h1, h2, htext, hs⟩ := parse_eq_ok_iff.mp h
  have hneutral := (h1.neutral.append (hs.neutral.append h2.neutral)) 0 []
  rw [Balanced, htext]
  simpa [openAfter] using hneutral

/-! ## Operands -/

inductive Operands : List Char → Prop
  | nil : Operands []
  | cons {op : BinaryOp} {b₁ b₂ s rest : List Char} {e : Expr} (h₁ : Blanks b₁) (h₂ : Blanks b₂)
      (hs : Written .full 6 s e) (h : Operands rest) :
      Operands (b₁ ++ (op.symbol.toList ++ (b₂ ++ (s ++ rest))))

theorem Operands.append {t : List Char} (hs : Operands s) (ht : Operands t) :
    Operands (s ++ t) := by
  induction hs with
  | nil => exact ht
  | @cons op _ _ _ _ _ h1 h2 hs _ ih =>
    have hcons := @Operands.cons op _ _ _ _ _ h1 h2 hs ih
    simpa only [append_assoc] using hcons

section

variable (h : Written .full k s e)
include h

theorem Written.exists_operands_of_le (hk : 6 ≤ k) :
    ∃ s0 e0 rest, s = s0 ++ rest ∧ Written .full 6 s0 e0 ∧ Operands rest :=
  ⟨s, e, [], (append_nil s).symm, h.of_le hk, .nil⟩

theorem Written.exists_operands :
    ∃ s0 e0 rest, s = s0 ++ rest ∧ Written .full 6 s0 e0 ∧ Operands rest := by
  induction h with
  | literal h => exact (literal h).exists_operands_of_le (by decide)
  | name h => exact (Written.name h).exists_operands_of_le (by decide)
  | paren h1 h2 h _ => exact (Written.paren h1 h2 h).exists_operands_of_le (by decide)
  | not hb h _ => exact (Written.not hb h).exists_operands_of_le (Nat.le_refl 6)
  | neg hb h hnumber _ => exact (neg hb h hnumber).exists_operands_of_le (Nat.le_refl 6)
  | fold hb h hsign hnumber _ =>
    exact (fold hb h hsign hnumber).exists_operands_of_le (Nat.le_refl 6)
  | plus hb h hsign _ => exact (plus hb h hsign).exists_operands_of_le (Nat.le_refl 6)
  | @binary op b₁ b₂ _ _ _ _ h1 h2 _ _ ihl ihr =>
    obtain ⟨s0, e0, rest, rfl, hs0, hrest⟩ := ihl
    obtain ⟨t0, f0, rest', rfl, ht0, hrest'⟩ := ihr
    exact ⟨s0, e0, _, append_assoc .., hs0, hrest.append (.cons h1 h2 ht0 hrest')⟩
  | looser _ ih => exact ih

/-- An operand with its signs that does not begin as a literal or a name does is in parentheses or
begins with a sign. -/
theorem Written.cases_of_mark {c : Char} (hk : 6 ≤ k) (hs : s = c :: u) (hc : opensAtom c = false) :
    (c = '(' ∧ ∃ b₁ t b₂, Blanks b₁ ∧ Blanks b₂ ∧ u = b₁ ++ (t ++ (b₂ ++ [')'])) ∧
        Written .full 0 t e) ∨
      c ≠ '(' ∧ ∃ b t e', Blanks b ∧ u = b ++ t ∧ Written .full 6 t e' := by
  have hatom : ¬OpensWith opensAtom s := by
    rintro ⟨c', r, rfl, hc'⟩
    rw [(cons.inj hs).1, hc] at hc'
    cases hc'
  induction h with
  | literal h => exact absurd (Literal.opens h) hatom
  | name h => exact absurd (h.opens.imp fun _ => opensAtom_of_isNameStart) hatom
  | paren h1 h2 h _ =>
    obtain ⟨rfl, rfl⟩ := cons.inj hs
    exact .inl ⟨rfl, _, _, _, h1, h2, rfl, h⟩
  | not hb h _ | neg hb h _ _ | fold hb h _ _ _ | plus hb h _ _ =>
    obtain ⟨rfl, rfl⟩ := cons.inj hs
    exact .inr ⟨by decide, _, _, _, hb, rfl, h⟩
  | @binary op _ _ _ _ _ _ _ _ _ _ _ _ =>
    exact absurd (level_lt_levels op) (by unfold levels; omega)
  | looser h ih => exact ih (by omega) hs hatom

/-- Where an expression begins with a balanced text in parentheses, that text is an expression, and
what follows it are operands behind operators. -/
theorem Written.exists_group {tail : List Char} (htail : Operands tail) (ht : Balanced t)
    (hrest : Stops (· == '\'') rest) (heq : s ++ tail = '(' :: (t.toList ++ ')' :: rest)) :
    (∃ e', parse t = .ok e') ∧ Operands rest := by
  obtain ⟨s0, e0, rest0, rfl, hs0, hrest0⟩ := h.exists_operands
  obtain ⟨c, u, rfl, -⟩ := hs0.opens fun _ _ => Literal.opens
  obtain ⟨rfl, heq⟩ := cons.inj heq
  obtain ⟨-, b₁, p, b₂, h1, h2, rfl, hp⟩ :=
    (hs0.cases_of_mark (Nat.le_refl 6) rfl (by decide)).resolve_right fun h => h.1 rfl
  have hneutral : Neutral (b₁ ++ (p ++ b₂)) := h1.neutral.append (hp.neutral.append h2.neutral)
  have hclose : t.toList ++ ')' :: rest = (b₁ ++ (p ++ b₂)) ++ ')' :: (rest0 ++ tail) := by
    simpa using heq.symm
  obtain ⟨htext, rfl⟩ := eq_of_append_close ht hneutral hrest hclose
  exact ⟨⟨e0, parse_eq_ok_iff.mpr ⟨b₁, p, b₂, h1, h2, htext, hp⟩⟩, hrest0.append htail⟩

end

/-! ## Negations and conjunctions -/

theorem written_paren_of_parse (h : parse t = .ok e) :
    Written .full 7 ('(' :: (t.toList ++ [')'])) e := by
  obtain ⟨b₁, s, b₂, h1, h2, htext, hs⟩ := parse_eq_ok_iff.mp h
  rw [htext]
  simpa only [append_assoc] using Written.paren h1 h2 hs

theorem Renders.written {text : String} (h : Renders .full text e)
    (hopen : OpensWith opensExpr text.toList) (hclose : text.toList = u ++ [')']) :
    Written .full 0 text.toList e := by
  obtain ⟨b₁, s, b₂, h1, h2, htext, hs⟩ := h
  have hfront : text.toList = s ++ b₂ := by
    have hskip := skipBlanks_append h1 (s ++ b₂)
    rwa [← htext, hopen.skipBlanks, ((hs.opens fun _ _ => Literal.opens).append b₂).skipBlanks]
      at hskip
  rcases eq_nil_or_concat b₂ with rfl | ⟨b, c, rfl⟩
  · rw [hfront, append_nil]
    exact hs
  · -- The last character would be a blank and a parenthesis.
    have hlast : s ++ b ++ [c] = u ++ [')'] := by
      rw [append_assoc, ← concat_eq_append, ← hfront, hclose]
    obtain rfl := singleton_inj.mp (append_inj_right' hlast rfl)
    exact absurd (h2 ')' (by simp)) (by decide)

theorem toList_negate (t : String) : (negate t).toList = '!' :: '(' :: (t.toList ++ [')']) := by
  simp [negate]

theorem parse_negate_eq_ok_iff (ht : Balanced t) :
    parse (negate t) = .ok e ↔ ∃ e', parse t = .ok e' ∧ e = .unary .not e' := by
  have hread : ∀ e', parse t = .ok e' → parse (negate t) = .ok (.unary .not e') := by
    intro e' he'
    have hnot := Written.not .nil (written_paren_of_parse he').looser
    refine parse_eq_ok_iff.mpr ⟨[], _, [], .nil, .nil, ?_, hnot.of_le (Nat.zero_le 6)⟩
    rw [toList_negate]
    simp
  constructor
  · intro h
    have htext := toList_negate t
    have hwritten := (parse_eq_ok_iff.mp h).written ⟨'!', _, htext, by decide⟩
      (u := '!' :: '(' :: t.toList) htext
    obtain ⟨s0, e0, rest, heq, hs0, hrest⟩ := hwritten.exists_operands
    obtain ⟨c, u, rfl, -⟩ := hs0.opens fun _ _ => Literal.opens
    rw [htext] at heq
    obtain ⟨rfl, htail⟩ := cons.inj heq
    obtain ⟨-, b, s, e1, hb, rfl, hs⟩ :=
      (hs0.cases_of_mark (Nat.le_refl 6) rfl (by decide)).resolve_left (by simp)
    have hgroup : s ++ rest = '(' :: (t.toList ++ ')' :: []) := by
      have hskip := skipBlanks_append hb (s ++ rest)
      rw [((hs.opens fun _ _ => Literal.opens).append rest).skipBlanks, ← append_assoc] at hskip
      exact hskip.symm.trans (congrArg skipBlanks htail.symm)
    obtain ⟨⟨e', he'⟩, -⟩ := hs.exists_group hrest ht .nil hgroup
    exact ⟨e', he', Except.ok.inj (h.symm.trans (hread e' he'))⟩
  · rintro ⟨e', he', rfl⟩
    exact hread e' he'

def conjuncts : List String → List Char
  | [] => []
  | t :: ts => ' ' :: '&' :: '&' :: ' ' :: '(' :: (t.toList ++ ')' :: conjuncts ts)

theorem stops_conjuncts (ts : List String) : Stops (· == '\'') (conjuncts ts) := by
  cases ts with
  | nil => exact .nil
  | cons t ts => exact stops_cons (by decide)

theorem exists_append_close (t : String) (ts : List String) :
    ∃ u, t.toList ++ ')' :: conjuncts ts = u ++ [')'] := by
  induction ts generalizing t with
  | nil => exact ⟨t.toList, rfl⟩
  | cons t' ts ih =>
    obtain ⟨u, hu⟩ := ih t'
    refine ⟨t.toList ++ ')' :: ' ' :: '&' :: '&' :: ' ' :: '(' :: u, ?_⟩
    simp [conjuncts, hu]

theorem toList_join_conjuncts (t : String) (ts : List String) :
    (Text.join " && " ((t :: ts).map fun t => "(" ++ t ++ ")")).toList =
      '(' :: (t.toList ++ ')' :: conjuncts ts) := by
  induction ts generalizing t with
  | nil => simp [Text.join, conjuncts]
  | cons t' ts ih =>
    have hih := ih t'
    simp only [Text.join, map_cons] at hih ⊢
    rw [String.intercalate_cons_cons, String.toList_append, hih]
    simp [conjuncts]

theorem filter_not_isAllBlank (h : ∀ t ∈ ts, isAllBlank t = false) :
    ts.filter (fun t => !isAllBlank t) = ts :=
  filter_eq_self.mpr fun t ht => by rw [h t ht]; rfl

theorem conjoin_singleton (h : isAllBlank t = false) : conjoin [t] = t := by
  rw [conjoin, filter_not_isAllBlank (forall_mem_singleton.mpr h)]

theorem toList_conjoin {t' : String} (h : ∀ u ∈ t :: t' :: ts, isAllBlank u = false) :
    (conjoin (t :: t' :: ts)).toList = '(' :: (t.toList ++ ')' :: conjuncts (t' :: ts)) := by
  rw [conjoin, filter_not_isAllBlank h]
  exact toList_join_conjuncts t (t' :: ts)

theorem Written.conjuncts {es : List Expr} (hts : ts.mapM parse = .ok es)
    (h : Written .full 1 s e) :
    Written .full 1 (s ++ conjuncts ts) (es.foldl (.binary .and) e) := by
  induction ts generalizing es s e with
  | nil =>
    cases hts
    rw [conjuncts, append_nil]
    exact h
  | cons t ts ih =>
    rw [mapM_cons] at hts
    obtain ⟨e', ht, hts⟩ := bind_eq_ok hts
    obtain ⟨es', hts', hes⟩ := bind_eq_ok hts
    cases hes
    have hand := @Written.binary .full .and _ _ _ _ _ _ .space .space h
      ((written_paren_of_parse ht).of_le (by decide))
    have hrest := ih hts' hand
    simpa [conjuncts, symbol] using hrest

theorem Operands.exists_parse (hts : ∀ t ∈ ts, Balanced t) (h : Operands (conjuncts ts)) :
    ∃ es, ts.mapM parse = .ok es := by
  induction ts with
  | nil => exact ⟨[], rfl⟩
  | cons t ts ih =>
    rw [forall_mem_cons] at hts
    generalize heq : conjuncts (t :: ts) = text at h
    cases h with
    | nil => cases heq
    | @cons op b₁ b₂ s rest e h1 h2 hs hrest =>
      have hopens := (hs.opens fun _ _ => Literal.opens).append rest
      -- The blanks on both sides are the same, so the operator is the `&&`.
      have hop : op.symbol.toList ++ (b₂ ++ (s ++ rest)) =
          '&' :: '&' :: ' ' :: '(' :: (t.toList ++ ')' :: conjuncts ts) := by
        have hskip := congrArg skipBlanks heq
        rw [skipBlanks_append h1] at hskip
        cases op <;> simpa [skipBlanks, conjuncts, symbol, isWhiteSpace] using hskip.symm
      have hgroup : s ++ rest = '(' :: (t.toList ++ ')' :: conjuncts ts) := by
        have hskip := skipBlanks_append h2 (s ++ rest)
        rw [hopens.skipBlanks] at hskip
        cases op <;> simp_all [symbol, skipBlanks, isWhiteSpace]
      obtain ⟨⟨e', he'⟩, hrest'⟩ := hs.exists_group hrest hts.1 (stops_conjuncts ts) hgroup
      obtain ⟨es, hes⟩ := ih hts.2 hrest'
      exact ⟨e' :: es, by rw [mapM_cons, he', hes]; rfl⟩

theorem mapM_parse_cons {es : List Expr} :
    (t :: ts).mapM parse = .ok (e :: es) ↔ parse t = .ok e ∧ ts.mapM parse = .ok es := by
  rw [mapM_cons]
  constructor
  · intro h
    obtain ⟨e', ht, h⟩ := bind_eq_ok h
    obtain ⟨es', hts, h⟩ := bind_eq_ok h
    obtain ⟨rfl, rfl⟩ := cons.inj (Except.ok.inj h)
    exact ⟨ht, hts⟩
  · rintro ⟨ht, hts⟩
    rw [ht, hts]
    rfl

/-- The conjunction of balanced texts that are not blank is read exactly if all of them are, as
their conjunction from the left. -/
theorem parse_conjoin_eq_ok_iff (hblank : ∀ u ∈ t :: ts, isAllBlank u = false)
    (hts : ∀ u ∈ t :: ts, Balanced u) :
    parse (conjoin (t :: ts)) = .ok e ↔
      ∃ e1 es, (t :: ts).mapM parse = .ok (e1 :: es) ∧ e = es.foldl (.binary .and) e1 := by
  simp only [mapM_parse_cons]
  cases ts with
  | nil =>
    rw [conjoin_singleton (hblank t mem_cons_self)]
    constructor
    · exact fun h => ⟨e, [], ⟨h, rfl⟩, rfl⟩
    · rintro ⟨e1, es, ⟨ht, hes⟩, rfl⟩
      cases hes
      exact ht
  | cons t' ts =>
    have htext := toList_conjoin hblank
    rw [forall_mem_cons] at hts
    have hread : ∀ e1 es, parse t = .ok e1 → (t' :: ts).mapM parse = .ok es →
        parse (conjoin (t :: t' :: ts)) = .ok (es.foldl (.binary .and) e1) := by
      intro e1 es ht hes
      have hfirst := (written_paren_of_parse ht).of_le (by decide : 1 ≤ 7)
      have hall := (hfirst.conjuncts hes).of_le (Nat.zero_le 1)
      refine parse_eq_ok_iff.mpr ⟨[], _, [], .nil, .nil, ?_, hall⟩
      rw [htext]
      simp
    constructor
    · intro h
      obtain ⟨u, hu⟩ := exists_append_close t (t' :: ts)
      have hclose : (conjoin (t :: t' :: ts)).toList = ('(' :: u) ++ [')'] := by
        rw [htext, hu, cons_append]
      have hwritten := (parse_eq_ok_iff.mp h).written ⟨'(', _, htext, by decide⟩ hclose
      have hgroup : (conjoin (t :: t' :: ts)).toList ++ [] =
          '(' :: (t.toList ++ ')' :: conjuncts (t' :: ts)) := by
        rw [htext, append_nil]
      obtain ⟨⟨e1, ht⟩, hrest⟩ := hwritten.exists_group .nil hts.1 (stops_conjuncts _) hgroup
      obtain ⟨es, hes⟩ := hrest.exists_parse hts.2
      exact ⟨e1, es, ⟨ht, hes⟩, Except.ok.inj (h.symm.trans (hread e1 es ht hes))⟩
    · rintro ⟨e1, es, ⟨ht, hes⟩, rfl⟩
      exact hread e1 es ht hes

theorem exists_parse_conjoin_iff (hblank : ∀ u ∈ t :: ts, isAllBlank u = false)
    (hts : ∀ u ∈ t :: ts, Balanced u) :
    (∃ e, parse (conjoin (t :: ts)) = .ok e) ↔ ∀ u ∈ t :: ts, ∃ e, parse u = .ok e := by
  constructor
  · rintro ⟨e, he⟩ u hu
    obtain ⟨e1, es, hes, -⟩ := (parse_conjoin_eq_ok_iff hblank hts).mp he
    obtain ⟨x, -, hx⟩ := (mapM_eq_ok hes).1 u hu
    exact ⟨x, hx⟩
  · intro h
    rw [forall_mem_cons] at h
    obtain ⟨e1, ht⟩ := h.1
    obtain ⟨es, hes⟩ := exists_mapM_eq_ok h.2
    have hall := mapM_parse_cons.mpr ⟨ht, hes⟩
    exact ⟨_, (parse_conjoin_eq_ok_iff hblank hts).mpr ⟨e1, es, hall, rfl⟩⟩

/-! ## Bare operators -/

def RendersAt (k : Nat) (text : String) (e : Expr) : Prop :=
  ∃ b₁ s b₂, Blanks b₁ ∧ Blanks b₂ ∧ text.toList = b₁ ++ (s ++ b₂) ∧ Written .full k s e

/-- What an operator with a tight operand behind an expression makes of it: it takes the whole
expression as its left operand, or only the right operand of a looser operator. -/
theorem Written.exists_attach {j : Nat} (h : Written .full j s e) (o : BinaryOp) (hj : j ≤ o.level)
    {t : List Char} (h1 : Blanks b₁) (h2 : Blanks b₂)
    (ht : Written .full (o.level + 1) t r) :
    ∃ e', Written .full j (s ++ (b₁ ++ (o.symbol.toList ++ (b₂ ++ t)))) e' ∧
      (e' = .binary o e r ∧ Written .full o.level s e ∨
        ∃ o' l x, e' = .binary o' l x ∧ o'.level < o.level) := by
  have hlevel : o.level < 6 := level_lt_levels o
  induction h with
  | literal _ | name _ | paren _ _ _ _ | not _ _ _ | neg _ _ _ _ | fold _ _ _ _ _ | plus _ _ _ _ =>
    omega
  | @binary o' c1 c2 sl sr l x hc1 hc2 hl hx _ ihx =>
    by_cases hlt : o'.level < o.level
    · -- The operator reaches into the right operand.
      obtain ⟨x', hx', -⟩ := ihx hlt
      refine ⟨.binary o' l x', ?_, .inr ⟨o', l, x', rfl, hlt⟩⟩
      simpa only [append_assoc] using Written.binary hc1 hc2 hl hx'
    · have heq : o'.level = o.level := by omega
      have hs := Written.binary hc1 hc2 hl hx
      rw [heq] at hs ⊢
      exact ⟨_, .binary h1 h2 hs ht, .inl ⟨rfl, hs⟩⟩
  | @looser k s e h ih =>
    by_cases hlt : k + 1 ≤ o.level
    · obtain ⟨e', he', hshape⟩ := ih hlt
      exact ⟨e', he'.looser, hshape⟩
    · have heq : k = o.level := by omega
      subst heq
      exact ⟨_, .binary h1 h2 h.looser ht, .inl ⟨rfl, h.looser⟩⟩

/-- Two expressions with an operator between them are one, and the operator takes both of them as
its operands only if they bind as tightly as it asks for. -/
theorem Written.exists_between {t : List Char} (ht : Written .full k t r)
    (hs : Written .full 0 s e) (o : BinaryOp) (h1 : Blanks b₁) (h2 : Blanks b₂) :
    ∃ e', Written .full 0 (s ++ (b₁ ++ (o.symbol.toList ++ (b₂ ++ t)))) e' ∧
      (e' = .binary o e r → Written .full o.level s e ∧ Written .full (o.level + 1) t r) := by
  -- An operand that is tight enough is attached as it is.
  have htight : ∀ {k t r}, Written .full k t r → o.level < k →
      ∃ e', Written .full 0 (s ++ (b₁ ++ (o.symbol.toList ++ (b₂ ++ t)))) e' ∧
        (e' = .binary o e r → Written .full o.level s e ∧ Written .full (o.level + 1) t r) := by
    intro k t r ht hk
    have ht' := ht.of_le hk
    obtain ⟨e', he', hshape⟩ := hs.exists_attach o (Nat.zero_le _) h1 h2 ht'
    refine ⟨e', he', fun heq => ?_⟩
    rcases hshape with ⟨-, hs'⟩ | ⟨o', l, x, rfl, hlt⟩
    · exact ⟨hs', ht'⟩
    · obtain ⟨rfl, -, -⟩ := Expr.binary.inj heq
      exact absurd hlt (Nat.lt_irrefl _)
  have hlevel : o.level < 6 := level_lt_levels o
  induction ht with
  | literal h => exact htight (.literal h) (by omega)
  | name h => exact htight (.name h) (by omega)
  | paren hb1 hb2 h _ => exact htight (.paren hb1 hb2 h) (by omega)
  | not hb h _ => exact htight (.not hb h) hlevel
  | neg hb h hnumber _ => exact htight (.neg hb h hnumber) hlevel
  | fold hb h hsign hnumber _ => exact htight (.fold hb h hsign hnumber) hlevel
  | plus hb h hsign _ => exact htight (.plus hb h hsign) hlevel
  | @binary op c1 c2 tl tr l x hc1 hc2 hl hx ihl _ =>
    by_cases hlt : o.level < op.level
    · exact htight (.binary hc1 hc2 hl hx) hlt
    · -- The left operand goes to `o` first, and `op` follows that.
      obtain ⟨e1, he1, -⟩ := ihl
      obtain ⟨e', he', hshape⟩ := he1.exists_attach op (Nat.zero_le _) hc1 hc2 hx
      refine ⟨e', by simpa only [append_assoc] using he', fun heq => ?_⟩
      rcases hshape with ⟨rfl, -⟩ | ⟨o', l', x', rfl, hlt'⟩
      · obtain ⟨-, -, hx⟩ := Expr.binary.inj heq
        exact absurd (congrArg sizeOf hx) (by simp)
      · obtain ⟨rfl, -, -⟩ := Expr.binary.inj heq
        exact absurd hlt' hlt
  | looser _ ih => exact ih

theorem toList_operator {s : String} {c1 c2 w : List Char} (o : BinaryOp)
    (hs : s.toList = b₁ ++ (u ++ b₂)) (ht : t.toList = c1 ++ (w ++ c2)) :
    (s ++ (" " ++ o.symbol ++ " ") ++ t).toList =
      b₁ ++ ((u ++ ((b₂ ++ [' ']) ++ (o.symbol.toList ++ (([' '] ++ c1) ++ w)))) ++ c2) := by
  simp [hs, ht]

/-- Two texts with a bare operator between them are always read, as the operator applied to what
they are read as exactly if they bind as tightly as it asks for. -/
theorem parse_operator_iff {s : String} {l : Expr} (hs : parse s = .ok l) (ht : parse t = .ok r)
    (o : BinaryOp) :
    (∃ e, parse (s ++ (" " ++ o.symbol ++ " ") ++ t) = .ok e) ∧
      (parse (s ++ (" " ++ o.symbol ++ " ") ++ t) = .ok (.binary o l r) ↔
        RendersAt o.level s l ∧ RendersAt (o.level + 1) t r) := by
  obtain ⟨b₁, u, b₂, hb1, hb2, hsu, hu⟩ := parse_eq_ok_iff.mp hs
  obtain ⟨c1, w, c2, hc1, hc2, htw, hw⟩ := parse_eq_ok_iff.mp ht
  obtain ⟨e, he, hsplit⟩ :=
    hw.exists_between hu o (hb2.append .space) (Blanks.space.append hc1)
  have hparse : parse (s ++ (" " ++ o.symbol ++ " ") ++ t) = .ok e :=
    parse_eq_ok_iff.mpr ⟨b₁, _, c2, hb1, hc2, toList_operator o hsu htw, he⟩
  refine ⟨⟨e, hparse⟩, fun h => ?_, ?_⟩
  · obtain ⟨hu', hw'⟩ := hsplit (Except.ok.inj (hparse.symm.trans h))
    exact ⟨⟨b₁, u, b₂, hb1, hb2, hsu, hu'⟩, ⟨c1, w, c2, hc1, hc2, htw, hw'⟩⟩
  · rintro ⟨⟨b₁, u, b₂, hb1, hb2, hsu, hu⟩, ⟨c1, w, c2, hc1, hc2, htw, hw⟩⟩
    have hbinary := Written.binary (hb2.append .space) (Blanks.space.append hc1) hu hw
    exact parse_eq_ok_iff.mpr
      ⟨b₁, _, c2, hb1, hc2, toList_operator o hsu htw, hbinary.of_le (Nat.zero_le _)⟩

end Branchwise.Guard

