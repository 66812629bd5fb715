import Branchwise.Engine.Query
import Branchwise.Proofs.Guard.RoundTrip

/-!
# Literals are read back

The literal of an integer that can be written is read as that integer, and the literal of a truth
value as that truth value.  The text of an integer has no blanks to be trimmed, no base mark and no
leading zero.
-/

namespace Branchwise

open List Guard Number Option Text

/-! ## Texts without blanks -/

theorem dropWhile_eq_self {p : Char → Bool} {s : List Char} (h : ∀ c ∈ s, p c = false) :
    s.dropWhile p = s := by
  cases s with
  | nil => rfl
  | cons c s => rw [dropWhile_cons_of_neg (Bool.eq_false_iff.mp (h c mem_cons_self))]

theorem Text.trimChars_eq_self {s : List Char} (h : ∀ c ∈ s, isBlank c = false) :
    trimChars s = s := by
  rw [trimChars, dropWhile_eq_self h, dropWhile_eq_self fun c hc => h c (mem_reverse.mp hc),
    reverse_reverse]

theorem Text.splitChars_eq_self {sep : Char} {s : List Char} (h : ∀ c ∈ s, c ≠ sep) :
    splitChars sep s = [s] := by
  induction s with
  | nil => rfl
  | cons c s ih =>
    rw [forall_mem_cons] at h
    rw [splitChars, if_neg h.1, ih h.2]

namespace Number

variable {s : List Char} {c : Char} {n : Nat}

theorem trimSpaces_eq_self (h : ∀ c ∈ s, isWhiteSpace c = false) : trimSpaces s = s := by
  rw [trimSpaces, dropWhile_eq_self h, dropWhile_eq_self fun c hc => h c (mem_reverse.mp hc),
    reverse_reverse]

/-! ## Numerals -/

theorem isDigit_of_mem_toDigits (h : c ∈ Nat.toDigits 10 n) : isDigit c :=
  isDigit_of_ofDigits? (ofDigits?_toDigits n) c h

theorem opensExpr_of_isDigit (h : isDigit c) : opensExpr c :=
  opensExpr_of_opensOperand (opensOperand_of_opensAtom
    (opensAtom_of_isLiteralDigit (by rw [isLiteralDigit, h, Bool.true_or])))

theorem toList_toString_negSucc (n : Nat) :
    (toString (Int.negSucc n)).toList = '-' :: Nat.toDigits 10 (n + 1) := by
  rw [show toString (Int.negSucc n) = "-" ++ toString (n + 1) from rfl, String.toList_append,
    toList_toString]
  rfl

theorem opensExpr_of_mem_toString {n : Int} (h : c ∈ (toString n).toList) :
    opensExpr c := by
  cases n with
  | ofNat n =>
    have hmem : c ∈ (toString n).toList := h
    rw [toList_toString] at hmem
    exact opensExpr_of_isDigit (isDigit_of_mem_toDigits hmem)
  | negSucc n =>
    rw [toList_toString_negSucc] at h
    rcases mem_cons.mp h with rfl | h
    · rfl
    · exact opensExpr_of_isDigit (isDigit_of_mem_toDigits h)

theorem dropUnderscores_of_digits (hne : s ≠ []) (h : ∀ c ∈ s, isDigit c) :
    dropUnderscores isDigit s = some s := by
  have hparts : splitChars '_' s = [s] := by
    refine splitChars_eq_self fun c hc => ?_
    rintro rfl
    exact absurd (h '_' hc) (by decide)
  simp [dropUnderscores, hparts, hne, all_eq_true.mpr h]

theorem digit_eq_zero (h : c.isDigit) (hc : digitValue? c = some 0) : c = '0' := by
  have hrange : 48 ≤ c.toNat ∧ c.toNat ≤ 57 := by
    rw [Char.isDigit, Bool.and_eq_true, decide_eq_true_eq, decide_eq_true_eq] at h
    exact ⟨h.1, h.2⟩
  have hvalue : digitValue? c = some (c.toNat - 48) := by
    simp only [digitValue?, if_pos (show c.toNat < 128 by omega), hrange.1, hrange.2]
    rfl
  have hcode : c.toNat = 48 := by
    have hzero : c.toNat - 48 = 0 := Option.some.inj (hvalue.symm.trans hc)
    omega
  exact Char.toNat_inj.mp hcode

theorem eq_zero_of_head_toDigits {r : List Char} (h : Nat.toDigits 10 n = c :: r)
    (hc : digitValue? c = some 0) : n = 0 := by
  by_contra hn
  have hdigit : c.isDigit :=
    Nat.isDigit_of_mem_toDigits (by decide) (by decide) (h ▸ mem_cons_self)
  refine head?_toDigits_ne_zero (Nat.pos_of_ne_zero hn) ?_
  rw [h, head?_cons, digit_eq_zero hdigit hc]

theorem decimal?_toDigits (h : isWritable (n : Int)) :
    int?.decimal? (Nat.toDigits 10 n) = some n := by
  have hlength := length_toDigits_le_iff.mpr h
  unfold int?.decimal?
  rw [dropUnderscores_of_digits Nat.toDigits_ne_nil fun c => isDigit_of_mem_toDigits,
    bind_eq_bind, bind_some, ofDigits?_toDigits,
    bind_eq_bind, bind_some, if_neg (Nat.not_lt.mpr hlength), if_neg]
  rw [Bool.and_eq_true, decide_eq_true_eq, decide_eq_true_eq]
  rintro ⟨hzero, hn⟩
  obtain ⟨c, hc, hvalue⟩ := bind_eq_some_iff.mp hzero
  obtain ⟨r, hr⟩ := head?_eq_some_iff.mp hc
  exact hn (eq_zero_of_head_toDigits hr hvalue)

theorem splitSign_of_digits (h : ∀ c ∈ s, isDigit c) : splitSign s = (false, s) := by
  unfold splitSign
  split
  · exact absurd (h '-' mem_cons_self) (by decide)
  · exact absurd (h '+' mem_cons_self) (by decide)
  · rfl

theorem decimalDigits?_of_digits (hne : s ≠ []) (h : ∀ c ∈ s, isDigit c) :
    decimalDigits? s = some (false, s) := by
  have htrim : trimSpaces s = s :=
    trimSpaces_eq_self fun c hc => isWhiteSpace_of_opensExpr (opensExpr_of_isDigit (h c hc))
  simp [decimalDigits?, htrim, splitSign_of_digits h, dropUnderscores_of_digits hne h]

theorem int?_of_splitSign (h : isWritable (n : Int)) {negative : Bool}
    (hs : splitSign (trimSpaces s) = (negative, Nat.toDigits 10 n)) :
    int? s = some (if negative then -(n : Int) else n) := by
  have hdecimal := decimal?_toDigits h
  unfold int?
  rw [hs]
  cases hdigits : Nat.toDigits 10 n with
  | nil => exact absurd hdigits Nat.toDigits_ne_nil
  | cons c r =>
    rw [hdigits] at hdecimal
    cases r with
    | nil => simp [hdecimal]
    | cons x d =>
      have hlead : digitValue? c ≠ some 0 := by
        intro hc
        rw [eq_zero_of_head_toDigits hdigits hc] at hdigits
        cases hdigits
      simp [hlead, hdecimal]

theorem int?_toString {n : Int} (h : isWritable n) : int? (toString n).toList = some n := by
  have htrim : trimSpaces (toString n).toList = (toString n).toList :=
    trimSpaces_eq_self fun c hc => isWhiteSpace_of_opensExpr (opensExpr_of_mem_toString hc)
  cases n with
  | ofNat n =>
    have hsign : splitSign (trimSpaces (toString (Int.ofNat n)).toList)
        = (false, Nat.toDigits 10 n) := by
      rw [htrim, show toString (Int.ofNat n) = toString n from rfl, toList_toString]
      exact splitSign_of_digits fun c => isDigit_of_mem_toDigits
    exact int?_of_splitSign h hsign
  | negSucc n =>
    have hwritable : isWritable ((n + 1 : Nat) : Int) := h
    have hsign : splitSign (trimSpaces (toString (Int.negSucc n)).toList)
        = (true, Nat.toDigits 10 (n + 1)) := by
      rw [htrim, toList_toString_negSucc]
      rfl
    rw [int?_of_splitSign hwritable hsign]
    rfl

end Number

namespace Literal

theorem parse_of_digits {n : Int} {text : String} (h : digits n = .ok text) :
    parse text = .ok (.int n) ∧ isWritable n := by
  unfold digits at h
  split at h
  · rename_i hwritable
    cases h
    refine ⟨?_, hwritable⟩
    have htrim : trim (toString n) = toString n := by
      rw [trim, trimChars_eq_self, String.ofList_toList]
      exact fun c hc => isBlank_of_opensExpr (opensExpr_of_mem_toString hc)
    have hread := int?_toString hwritable
    -- The words for truth values are no numerals.
    have hne (word : String) (hword : Number.int? word.toList = none) : toString n ≠ word := by
      rintro rfl
      exact nomatch hword.symm.trans hread
    simp only [parse, htrim, if_neg (hne "true" (by cbv)), if_neg (hne "false" (by cbv)), hread]
  · cases h

theorem parse_of_write_bool {q : Rat} {text : String} (h : write .bool q = .ok text) :
    parse text = .ok (.bool (q != 0)) := by
  cases h
  by_cases hq : q = 0
  · rw [hq]
    cbv
  · rw [if_neg hq, bne_iff_ne.mpr hq]
    cbv

end Literal

end Branchwise
