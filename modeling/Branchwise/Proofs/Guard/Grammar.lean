import Branchwise.Guard.Parser

/-!
# The grammar of guards

When a text is a way to write an expression.  The grammar has two parameters: how literals are
spelled, and whether signs may be spent freely.  In the plain style every literal has one spelling
and a minus is part of a negative number; the full style has everything that is read.
-/

namespace Branchwise

open List BinaryOp Number Option Text

/-- The level of a binary operator: the higher it is, the tighter the operator binds. -/
def BinaryOp.level : BinaryOp → Nat
  | or => 0
  | and => 1
  | eq | ne => 2
  | le | ge | lt | gt => 3
  | add | sub => 4
  | mul | div | rem => 5

/-- A numeric constant with the other sign; other expressions have none. -/
def Expr.negated? : Expr → Option Expr
  | int n => some (.int (-n))
  | real x => some (.real x.neg)
  | _ => none

namespace Guard

open Text (isBlank isWhiteSpace isLiteralDigit isNameStart isNameChar isWord)

variable {s r rest : List Char} {c : Char} {p : Char → Bool} {e : Expr} {j k : Nat}

/-! ## Lexemes -/

def Blanks (b : List Char) : Prop := ∀ c ∈ b, isWhiteSpace c

/-- A letter or an underscore, and then letters, digits and underscores. -/
def IsIdentifier (x : List Char) : Prop :=
  ∃ c r, x = c :: r ∧ isNameStart c ∧ ∀ d ∈ r, isNameChar d

/-- Member and index steps as they are written, and the same without blanks. -/
inductive Steps : List Char → List Char → Prop
  | nil : Steps [] []
  | member {arrow b₁ b₂ x s t : List Char} (ha : arrow = ['.'] ∨ arrow = ['-', '>'])
      (h₁ : Blanks b₁) (h₂ : Blanks b₂) (hx : IsIdentifier x) (h : Steps s t) :
      Steps (b₁ ++ (arrow ++ (b₂ ++ (x ++ s)))) (arrow ++ (x ++ t))
  | index {b₁ b₂ b₃ i s t : List Char} (h₁ : Blanks b₁) (h₂ : Blanks b₂) (h₃ : Blanks b₃)
      (hne : i ≠ []) (hi : ∀ c ∈ i, isNameChar c) (h : Steps s t) :
      Steps (b₁ ++ '[' :: (b₂ ++ (i ++ (b₃ ++ ']' :: s)))) ('[' :: (i ++ ']' :: t))

/-- A path as it is written, and the name that it is.  Its first identifier is no truth value. -/
inductive Path : List Char → List Char → Prop
  | mk {x s t : List Char} (hx : IsIdentifier x) (htrue : x ≠ "true".toList)
      (hfalse : x ≠ "false".toList) (hs : Steps s t) : Path (x ++ s) (x ++ t)

inductive IsExponent : List Char → Prop
  | mk {mark : Char} {sign digits : List Char} (hmark : mark = 'e' ∨ mark = 'E')
      (hsign : sign = [] ∨ sign = ['+'] ∨ sign = ['-']) (hne : digits ≠ [])
      (hdigits : ∀ c ∈ digits, isLiteralDigit c) : IsExponent (mark :: (sign ++ digits))

/-- A floating number without its suffix: digits with a point among them, an exponent, or both. -/
inductive IsReal : List Char → Prop
  | point {whole fraction exponent : List Char} (hwhole : ∀ c ∈ whole, isLiteralDigit c)
      (hfraction : ∀ c ∈ fraction, isLiteralDigit c) (hne : whole ≠ [] ∨ fraction ≠ [])
      (hexponent : exponent = [] ∨ IsExponent exponent) :
      IsReal (whole ++ '.' :: (fraction ++ exponent))
  | exponent {whole exponent : List Char} (hwhole : ∀ c ∈ whole, isLiteralDigit c)
      (hne : whole ≠ []) (hexponent : IsExponent exponent) : IsReal (whole ++ exponent)

/-- Digits that are read as octal: at least two, the first of them zero. -/
def IsOctal (digits : List Char) : Prop := ∃ d r, digits = '0' :: d :: r

inductive Literal : List Char → Expr → Prop
  | decimal {digits suffix : List Char} {n : Nat} (hne : digits ≠ []) (hoctal : ¬ IsOctal digits)
      (hlength : digits.length ≤ maxDecimalDigits)
      (hvalue : ofDigits? 10 digits = some n)
      (hsuffix : ∀ c ∈ suffix, isIntSuffix c) : Literal (digits ++ suffix) (.int n)
  | octal {digits suffix : List Char} {n : Nat} (hoctal : IsOctal digits)
      (hvalue : ofDigits? 8 digits = some n)
      (hsuffix : ∀ c ∈ suffix, isIntSuffix c) : Literal (digits ++ suffix) (.int n)
  | hexadecimal {mark : Char} {digits suffix : List Char} {n : Nat}
      (hmark : mark = 'x' ∨ mark = 'X') (hne : digits ≠ [])
      (hdigits : ∀ c ∈ digits, (hexValue? c).isSome)
      (hvalue : ofHexDigits? 16 digits = some n)
      (hsuffix : ∀ c ∈ suffix, isIntSuffix c) :
      Literal ('0' :: mark :: (digits ++ suffix)) (.int n)
  | real {number suffix : List Char} {d : Decimal} (hnumber : IsReal number)
      (hvalue : unsignedReal? some number = some d) (hone : suffix.length ≤ 1)
      (hsuffix : ∀ c ∈ suffix, isRealSuffix c) :
      Literal (number ++ suffix) (.real (ofDecimal d))
  | char {c : Char} (hescape : c ≠ '\\') (hquote : c ≠ '\'') :
      Literal ['\'', c, '\''] (.int c.toNat)
  | escape {c : Char} {n : Int} (hcode : escapeCode? c = some n) :
      Literal ['\'', '\\', c, '\''] (.int n)
  | bool (b : Bool) : Literal (Expr.bool b).text.toList (.bool b)

/-- The one plain spelling of a truth value or of an integer that is not negative. -/
inductive PlainLiteral : List Char → Expr → Prop
  | numeral (n : Nat) : PlainLiteral (toString n).toList (.int n)
  | bool (b : Bool) : PlainLiteral (Expr.bool b).text.toList (.bool b)

/-! ## Expressions -/

/-- How much a text may vary beyond blanks and redundant parentheses. -/
structure Style where
  literal : List Char → Expr → Prop
  /-- Whether a plus may stand anywhere, and a minus before anything that reads as a number. -/
  anySign : Prop

def Style.plain : Style := ⟨PlainLiteral, False⟩

def Style.full : Style := ⟨Literal, True⟩

/-- The texts of an expression that can stand where a level is asked for, without blanks around
them: `0` to `5` are the levels of binary operators, `6` admits signs and `7` is an operand. -/
inductive Written (v : Style) : Nat → List Char → Expr → Prop
  | literal {s : List Char} {e : Expr} (h : v.literal s e) : Written v 7 s e
  | name {s x : List Char} (h : Path s x) : Written v 7 s (.name (String.ofList x))
  | paren {b₁ s b₂ : List Char} {e : Expr} (h₁ : Blanks b₁) (h₂ : Blanks b₂)
      (h : Written v 0 s e) : Written v 7 ('(' :: (b₁ ++ (s ++ (b₂ ++ [')'])))) e
  | not {b s : List Char} {e : Expr} (hb : Blanks b) (h : Written v 6 s e) :
      Written v 6 ('!' :: (b ++ s)) (.unary .not e)
  | neg {b s : List Char} {e : Expr} (hb : Blanks b) (h : Written v 6 s e)
      (hnumber : e.negated? = none) : Written v 6 ('-' :: (b ++ s)) (.unary .neg e)
  | fold {b s : List Char} {e e' : Expr} (hb : Blanks b) (h : Written v 6 s e)
      (hsign : v.anySign ∨ v.literal s e) (hnumber : e.negated? = some e') :
      Written v 6 ('-' :: (b ++ s)) e'
  | plus {b s : List Char} {e : Expr} (hb : Blanks b) (h : Written v 6 s e) (hsign : v.anySign) :
      Written v 6 ('+' :: (b ++ s)) e
  | binary {op : BinaryOp} {b₁ b₂ s t : List Char} {l r : Expr} (h₁ : Blanks b₁) (h₂ : Blanks b₂)
      (hl : Written v op.level s l) (hr : Written v (op.level + 1) t r) :
      Written v op.level (s ++ (b₁ ++ (op.symbol.toList ++ (b₂ ++ t)))) (.binary op l r)
  | looser {k : Nat} {s : List Char} {e : Expr} (h : Written v (k + 1) s e) : Written v k s e

/-- A whole text that writes an expression: one of its texts with blanks around it. -/
def Renders (v : Style) (text : String) (e : Expr) : Prop :=
  ∃ b₁ s b₂, Blanks b₁ ∧ Blanks b₂ ∧ text.toList = b₁ ++ (s ++ b₂) ∧ Written v 0 s e

theorem Written.of_le {v : Style} (h : Written v k s e) (hjk : j ≤ k) : Written v j s e := by
  induction k with
  | zero =>
    obtain rfl : j = 0 := Nat.le_zero.1 hjk
    exact h
  | succ k ih =>
    by_cases hj : j = k + 1
    · exact hj ▸ h
    · exact ih h.looser (by omega)

/-! ## Characters -/

def blankCodes : List Nat :=
  [9, 10, 11, 12, 13, 28, 29, 30, 31, 32, 0x85, 0xA0, 0x1680, 0x2000, 0x2001, 0x2002, 0x2003,
    0x2004, 0x2005, 0x2006, 0x2007, 0x2008, 0x2009, 0x200A, 0x2028, 0x2029, 0x202F, 0x205F, 0x3000]

theorem isBlank_of_isWhiteSpace (h : isWhiteSpace c) : isBlank c := by
  rw [isBlank, h, Bool.or_true]

theorem eq_false_of_isBlank (hp : ∀ n ∈ blankCodes, p (Char.ofNat n) = false)
    (hc : isBlank c) : p c = false := by
  have hmem : c.toNat ∈ blankCodes := by
    simp only [isBlank, isWhiteSpace, inRanges, any_cons, any_nil, Bool.or_eq_true,
      Bool.and_eq_true, decide_eq_true_eq, beq_iff_eq, Bool.or_false] at hc
    simp only [blankCodes, mem_cons, not_mem_nil, or_false]
    omega
  have h := hp c.toNat hmem
  rwa [Char.ofNat_toNat] at h

theorem eq_true_of_mem {l : List Char} (h : l.all p) (hc : c ∈ l) : p c :=
  all_eq_true.1 h c hc

theorem eq_false_of_mem {l : List Char} (h : l.any p = false) (hc : c ∈ l) : p c = false :=
  Bool.eq_false_iff.2 (any_eq_false.1 h c hc)

/-- The characters of the operators, and the closing parenthesis. -/
def marks : List Char := [')', '|', '&', '=', '!', '<', '>', '+', '-', '*', '/', '%']

def isDelimiter (c : Char) : Bool := isWhiteSpace c || marks.contains c

/-- Whether a character can stand inside a literal or an identifier. -/
def isInner (c : Char) : Bool :=
  isWord c || isLiteralDigit c || c == '.' || c == '['

theorem isInner_of_isDelimiter (h : isDelimiter c) : isInner c = false := by
  rcases Bool.or_eq_true_iff.1 h with hw | hm
  · exact eq_false_of_isBlank (p := isInner) (by decide +kernel) (isBlank_of_isWhiteSpace hw)
  · exact eq_false_of_mem (p := isInner) (by decide) (contains_iff_mem.1 hm)

def opensAtom (c : Char) : Bool :=
  isLiteralDigit c || isNameStart c || c == '.' || c == '\''

def opensOperand (c : Char) : Bool := opensAtom c || c == '('

def opensExpr (c : Char) : Bool := opensOperand c || c == '!' || c == '-' || c == '+'

theorem isBlank_of_opensExpr (h : opensExpr c) : isBlank c = false := by
  cases hc : isBlank c with
  | false => rfl
  | true =>
    have hopens := eq_false_of_isBlank (p := opensExpr) (by decide) hc
    rw [h] at hopens
    exact hopens

theorem isWhiteSpace_of_opensExpr (h : opensExpr c) : isWhiteSpace c = false := by
  cases hc : isWhiteSpace c with
  | false => rfl
  | true =>
    rw [← isBlank_of_opensExpr h]
    exact (isBlank_of_isWhiteSpace hc).symm

def OpensWith (p : Char → Bool) (s : List Char) : Prop := ∃ c r, s = c :: r ∧ p c

theorem OpensWith.append (h : OpensWith p s) (t : List Char) : OpensWith p (s ++ t) := by
  obtain ⟨c, r, rfl, hc⟩ := h
  exact ⟨c, r ++ t, rfl, hc⟩

theorem OpensWith.imp {q : Char → Bool} (h : OpensWith p s) (hpq : ∀ c, p c → q c) :
    OpensWith q s := by
  obtain ⟨c, r, rfl, hc⟩ := h
  exact ⟨c, r, rfl, hpq c hc⟩

theorem OpensWith.of_forall (hne : s ≠ []) (h : ∀ c ∈ s, p c) : OpensWith p s := by
  obtain ⟨c, r, rfl⟩ := exists_cons_of_ne_nil hne
  exact ⟨c, r, rfl, h c mem_cons_self⟩

theorem opensAtom_of_isLiteralDigit (h : isLiteralDigit c) : opensAtom c := by
  simp only [opensAtom, h, Bool.true_or]

theorem opensAtom_of_isNameStart (h : isNameStart c) : opensAtom c := by
  simp only [opensAtom, h, Bool.or_true, Bool.true_or]

theorem opensOperand_of_opensAtom (h : opensAtom c) : opensOperand c := by
  simp only [opensOperand, h, Bool.true_or]

theorem opensExpr_of_opensOperand (h : opensOperand c) : opensExpr c := by
  simp only [opensExpr, h, Bool.true_or]

theorem isDigit_of_ofDigits? {base n : Nat} {digits : List Char}
    (h : ofDigits? base digits = some n) : ∀ c ∈ digits, isDigit c := by
  unfold ofDigits? at h
  generalize 0 = acc at h
  induction digits generalizing acc with
  | nil => exact nofun
  | cons d r ih =>
    rw [foldlM_cons] at h
    obtain ⟨acc', hd, hr⟩ := bind_eq_some_iff.1 h
    have hdigit : isDigit d := by
      cases hv : digitValue? d with
      | none => rw [hv] at hd; exact absurd hd nofun
      | some v => rw [isDigit, hv, isSome_some]
    exact forall_mem_cons.2 ⟨hdigit, ih acc' hr⟩

theorem isLiteralDigit_of_ofDigits? {base n : Nat} {digits : List Char}
    (h : ofDigits? base digits = some n) : ∀ c ∈ digits, isLiteralDigit c := by
  intro c hc
  rw [isLiteralDigit, isDigit_of_ofDigits? h c hc, Bool.true_or]

theorem IsIdentifier.opens {x : List Char} (h : IsIdentifier x) : OpensWith isNameStart x := by
  obtain ⟨c, r, rfl, hc, -⟩ := h
  exact ⟨c, r, rfl, hc⟩

theorem Path.opens {x : List Char} (h : Path s x) : OpensWith isNameStart s := by
  obtain ⟨hx, -, -, -⟩ := h
  exact hx.opens.append _

theorem IsReal.opens (h : IsReal s) : OpensWith opensAtom s := by
  cases h with
  | @point whole fraction exponent hwhole _ _ _ =>
    cases whole with
    | nil => exact ⟨'.', fraction ++ exponent, rfl, by decide⟩
    | cons c r =>
      exact ⟨c, _, rfl, opensAtom_of_isLiteralDigit (hwhole c mem_cons_self)⟩
  | exponent hwhole hne _ =>
    have h := (OpensWith.of_forall hne hwhole).imp fun _ => opensAtom_of_isLiteralDigit
    exact h.append _

theorem Literal.opens (h : Literal s e) : OpensWith opensAtom s := by
  cases h with
  | decimal hne _ _ hvalue _ =>
    have h := OpensWith.of_forall hne (isLiteralDigit_of_ofDigits? hvalue)
    exact (h.imp fun _ => opensAtom_of_isLiteralDigit).append _
  | octal hoctal _ _ =>
    obtain ⟨d, r, rfl⟩ := hoctal
    exact ⟨'0', _, rfl, by decide⟩
  | hexadecimal _ _ _ _ _ => exact ⟨'0', _, rfl, by decide⟩
  | real hnumber _ _ _ => exact hnumber.opens.append _
  | char _ _ => exact ⟨'\'', _, rfl, by decide⟩
  | escape _ => exact ⟨'\'', _, rfl, by decide⟩
  | bool b =>
    cases b with
    | true => exact ⟨'t', _, rfl, by decide⟩
    | false => exact ⟨'f', _, rfl, by decide⟩

theorem level_lt_levels (op : BinaryOp) : op.level < levels := by
  cases op <;> decide

theorem Written.level_le {v : Style} (h : Written v k s e) : k ≤ 7 := by
  induction h with
  | literal _ | name _ | paren _ _ _ _ => exact Nat.le_refl 7
  | not _ _ _ | neg _ _ _ _ | fold _ _ _ _ _ | plus _ _ _ _ => exact Nat.le_succ 6
  | @binary op _ _ _ _ _ _ _ _ _ _ _ _ =>
    exact Nat.le_trans (Nat.le_of_lt (level_lt_levels op)) (Nat.le_succ 6)
  | looser _ ih => exact Nat.le_of_succ_le ih

section Opens

variable {v : Style} (hv : ∀ s e, v.literal s e → OpensWith opensAtom s)
include hv

theorem Written.opens_operand (h : Written v 7 s e) : OpensWith opensOperand s := by
  generalize hk : 7 = k at h
  cases h with
  | literal h => exact (hv _ _ h).imp fun _ => opensOperand_of_opensAtom
  | name h => exact h.opens.imp fun _ hc => opensOperand_of_opensAtom (opensAtom_of_isNameStart hc)
  | paren _ _ _ => exact ⟨'(', _, rfl, by decide⟩
  | not _ _ | neg _ _ _ | fold _ _ _ _ | plus _ _ _ => exact absurd hk (by decide)
  | @binary op _ _ _ _ _ _ _ _ _ _ =>
    exact absurd (hk ▸ level_lt_levels op) (by decide)
  | looser h =>
    have hle := h.level_le
    omega

theorem Written.opens (h : Written v k s e) : OpensWith opensExpr s := by
  induction h with
  | literal h =>
    exact ((Written.literal h).opens_operand hv).imp fun _ => opensExpr_of_opensOperand
  | name h => exact ((Written.name h).opens_operand hv).imp fun _ => opensExpr_of_opensOperand
  | paren _ _ _ _ => exact ⟨'(', _, rfl, by decide⟩
  | not _ _ _ => exact ⟨'!', _, rfl, by decide⟩
  | neg _ _ _ _ => exact ⟨'-', _, rfl, by decide⟩
  | fold _ _ _ _ _ => exact ⟨'-', _, rfl, by decide⟩
  | plus _ _ _ _ => exact ⟨'+', _, rfl, by decide⟩
  | binary _ _ _ _ ihl _ => exact ihl.append _
  | looser _ ih => exact ih

end Opens

/-! ## Blanks -/

theorem Blanks.nil : Blanks [] := nofun

theorem Blanks.space : Blanks [' '] := by
  intro c hc
  obtain rfl := mem_singleton.1 hc
  decide

theorem skipBlanks_append {b : List Char} (h : Blanks b) (s : List Char) :
    skipBlanks (b ++ s) = skipBlanks s :=
  dropWhile_append_of_pos h

theorem OpensWith.skipBlanks (h : OpensWith opensExpr s) : skipBlanks s = s := by
  obtain ⟨c, r, rfl, hc⟩ := h
  exact dropWhile_cons_of_neg (by rw [isWhiteSpace_of_opensExpr hc]; decide)

theorem exists_blanks_append (s : List Char) : ∃ b, Blanks b ∧ s = b ++ skipBlanks s := by
  refine ⟨s.takeWhile isWhiteSpace, fun c hc => ?_, takeWhile_append_dropWhile.symm⟩
  exact all_eq_true.1 all_takeWhile c hc

/-! ## Operators -/

theorem after?_append (p s : List Char) : after? p (p ++ s) = some s := by
  induction p with
  | nil => rfl
  | cons c p ih =>
    rw [cons_append, after?, if_pos rfl]
    exact ih

theorem eq_append_of_after? {p : List Char} (h : after? p s = some r) : s = p ++ r := by
  induction p generalizing s with
  | nil => exact Option.some.inj h
  | cons c p ih =>
    cases s with
    | nil => exact absurd h nofun
    | cons d s =>
      rw [after?] at h
      split at h
      · rename_i hcd
        rw [hcd, cons_append, ih h]
      · cases h

theorem operator?_symbol (op : BinaryOp) (k : Nat) (heq : c ≠ '=') (r : List Char) :
    operator? k (op.symbol.toList ++ c :: r) =
      if op.level = k then some (op, c :: r) else none := by
  have heq' : ¬ '=' = c := fun h => heq h.symm
  match k with
  | 0 | 1 | 2 | 3 | 4 | 5 =>
    cases op <;>
      simp [operator?, operators, symbol, level, after?, heq']
  | k + 6 =>
    have hlevel := level_lt_levels op
    rw [if_neg (by unfold levels at hlevel; omega)]
    rfl

theorem symbol_level_of_mem_operators (k : Nat) :
    ∀ p ∈ operators k, p.2.symbol = p.1 ∧ p.2.level = k := by
  match k with
  | 0 | 1 | 2 | 3 | 4 | 5 => decide
  | k + 6 => exact nofun

theorem eq_append_of_operator? {op : BinaryOp} (h : operator? k s = some (op, r)) :
    op.level = k ∧ s = op.symbol.toList ++ r := by
  obtain ⟨⟨symbol, op'⟩, hmem, hafter⟩ := exists_of_findSome?_eq_some h
  obtain ⟨r', hr', heq⟩ := map_eq_some_iff.1 hafter
  obtain ⟨rfl, rfl⟩ := Prod.mk.inj heq
  obtain ⟨hsymbol, hlevel⟩ := symbol_level_of_mem_operators k _ hmem
  exact ⟨hlevel, hsymbol ▸ eq_append_of_after? hr'⟩

/-! ## What may follow an expression -/

/-- What can come after an expression of a level and the blanks behind it: nothing, a closing
parenthesis, or a looser operator that is not the beginning of a longer token. -/
inductive Closes (k : Nat) : List Char → Prop
  | nil : Closes k []
  | paren (r : List Char) : Closes k (')' :: r)
  | operator {op : BinaryOp} {c : Char} (hlevel : op.level < k) (heq : c ≠ '=') (hgt : c ≠ '>')
      (r : List Char) : Closes k (op.symbol.toList ++ c :: r)

def MayFollow (k : Nat) (rest : List Char) : Prop := ∃ b t, rest = b ++ t ∧ Blanks b ∧ Closes k t

theorem Closes.mono {t : List Char} (h : Closes j t) (hjk : j ≤ k) : Closes k t := by
  cases h with
  | nil => exact .nil
  | paren r => exact .paren r
  | operator hlevel heq hgt r => exact .operator (Nat.lt_of_lt_of_le hlevel hjk) heq hgt r

theorem MayFollow.mono (h : MayFollow j rest) (hjk : j ≤ k) : MayFollow k rest := by
  obtain ⟨b, t, rfl, hb, ht⟩ := h
  exact ⟨b, t, rfl, hb, ht.mono hjk⟩

theorem Closes.mem_marks {t : List Char} (h : Closes k t) (ht : t = c :: r) : c ∈ marks := by
  cases h with
  | nil => exact absurd ht nofun
  | paren _ =>
    obtain ⟨rfl, -⟩ := cons.inj ht
    decide
  | @operator op _ _ _ _ _ =>
    cases op <;> obtain ⟨rfl, -⟩ := cons.inj ht <;> decide

theorem Closes.skipBlanks {t : List Char} (h : Closes k t) : skipBlanks t = t := by
  cases t with
  | nil => rfl
  | cons c r =>
    have hc := eq_false_of_mem (p := isWhiteSpace) (by decide) (h.mem_marks rfl)
    exact dropWhile_cons_of_neg (by rw [hc]; decide)

theorem MayFollow.isDelimiter (h : MayFollow k rest) (hc : rest = c :: r) :
    isDelimiter c := by
  obtain ⟨b, t, rfl, hb, ht⟩ := h
  cases b with
  | nil =>
    exact Bool.or_eq_true_iff.2 (.inr (contains_iff_mem.2 (ht.mem_marks hc)))
  | cons d b =>
    obtain ⟨rfl, -⟩ := cons.inj hc
    exact Bool.or_eq_true_iff.2 (.inl (hb d mem_cons_self))

theorem MayFollow.operator?_eq_none (h : MayFollow j rest) (hjk : j ≤ k) :
    operator? k (skipBlanks rest) = none := by
  obtain ⟨b, t, rfl, hb, ht⟩ := h
  rw [skipBlanks_append hb, ht.skipBlanks]
  cases ht with
  | nil =>
    match k with
    | 0 | 1 | 2 | 3 | 4 | 5 | k + 6 => rfl
  | paren r =>
    match k with
    | 0 | 1 | 2 | 3 | 4 | 5 | k + 6 => rfl
  | operator hlevel heq _ r =>
    rw [operator?_symbol _ _ heq, if_neg (by omega)]

theorem MayFollow.pathStep?_eq_none (h : MayFollow k rest) : pathStep? rest = none := by
  obtain ⟨b, t, rfl, hb, ht⟩ := h
  rw [pathStep?, skipBlanks_append hb, ht.skipBlanks]
  cases ht with
  | nil => rfl
  | paren r => rfl
  | @operator op c _ _ hgt r =>
    cases op <;> first | rfl | simp [symbol, hgt]

end Guard

end Branchwise
