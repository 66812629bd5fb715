import Branchwise.Json.Decoder
import Mathlib.Tactic

/-!
# The order of numbers

Numbers are compared by their places on the line that infinity closes at both ends.  The order of
that line is a linear one, and comparing stored numbers, for equality or for order, is comparing
places.
-/

namespace Branchwise

namespace Extended

/-- A place of the closed line between a least and a greatest element. -/
def toWithBot : Extended → WithBot (WithTop ℚ)
  | negInf => ⊥
  | fin r => ((r : WithTop ℚ) : WithBot (WithTop ℚ))
  | posInf => ((⊤ : WithTop ℚ) : WithBot (WithTop ℚ))

theorem toWithBot_injective : Function.Injective toWithBot := by
  intro a b h
  cases a <;> cases b <;> simp_all [toWithBot]

instance : LinearOrder Extended := LinearOrder.lift' toWithBot toWithBot_injective

theorem lt_eq_decide (a b : Extended) : a.lt b = decide (a < b) := by
  have hiff : a < b ↔ a.toWithBot < b.toWithBot := Iff.rfl
  have htop (r : ℚ) : (fin r).toWithBot < posInf.toWithBot :=
    WithBot.coe_lt_coe.mpr (WithTop.coe_lt_top r)
  rw [Bool.eq_iff_iff, decide_eq_true_iff, hiff]
  cases a <;> cases b <;> simp [lt, htop] <;> simp [toWithBot]

theorem le_eq_decide (a b : Extended) : a.le b = decide (a ≤ b) := by
  rw [le, lt_eq_decide, ← decide_not, decide_eq_decide, not_lt]

theorem fin_le_fin {a b : ℚ} : fin a ≤ fin b ↔ a ≤ b := by
  rw [← decide_eq_true_iff (p := fin a ≤ fin b), ← le_eq_decide, le, lt, Bool.not_eq_true',
    decide_eq_false_iff_not, not_lt]

theorem not_fin_le_negInf {a : ℚ} : ¬fin a ≤ negInf := by
  rw [← decide_eq_true_iff (p := fin a ≤ negInf)]
  exact Bool.false_ne_true

theorem not_posInf_le_fin {a : ℚ} : ¬posInf ≤ fin a := by
  rw [← decide_eq_true_iff (p := posInf ≤ fin a)]
  exact Bool.false_ne_true

end Extended

namespace Scalar

theorem le_eq_true {a b : Scalar} :
    a.le b ↔ ∃ x y, a.value? = some x ∧ b.value? = some y ∧ x ≤ y := by
  unfold le
  split
  · rename_i x y hx hy
    simp [hx, hy, Extended.le_eq_decide]
  · rename_i hnone
    exact ⟨nofun, fun ⟨x, y, hx, hy, _⟩ => (hnone x y hx hy).elim⟩

theorem le_trans {a b c : Scalar} (hab : a.le b) (hbc : b.le c) : a.le c := by
  obtain ⟨x, y, hx, hy, hxy⟩ := le_eq_true.mp hab
  obtain ⟨y', z, hy', hz, hyz⟩ := le_eq_true.mp hbc
  cases hy.symm.trans hy'
  exact le_eq_true.mpr ⟨x, z, hx, hz, hxy.trans hyz⟩

end Scalar

namespace Json

def value? (j : Json) : Option Extended := j.scalar?.bind Scalar.value?

def IsNumber (j : Json) : Prop := j.value?.isSome

theorem IsNumber.exists_value {j : Json} (h : j.IsNumber) : ∃ x, j.value? = some x :=
  Option.isSome_iff_exists.mp h

section Comparison

variable {a b : Json} {x y : Extended}

theorem scalar?_of_value? (h : a.value? = some x) : ∃ s, a.scalar? = some s ∧ s.value? = some x :=
  Option.bind_eq_some_iff.mp h

theorem isNull_of_value? (h : a.value? = some x) : a.isNull = false := by
  cases a <;> first | rfl | cases h

theorem isNaN_of_value? (h : a.value? = some x) : a.isNaN = false := by
  cases a with
  | real r =>
    cases r with
    | nan tag => cases h
    | finite | infinite => rfl
  | null | bool | int | str | arr | obj => rfl

theorem beq_of_value? (ha : a.value? = some x) (hb : b.value? = some y) :
    (a == b) = decide (x = y) := by
  obtain ⟨s, hs, hsx⟩ := scalar?_of_value? ha
  obtain ⟨t, ht, hty⟩ := scalar?_of_value? hb
  have hsame : (a == b) = s.same t := by
    cases a <;> cases hs <;> cases b <;> cases ht <;> rfl
  have heq : s.same t = s.eq t := by
    unfold Scalar.same
    split
    · cases hsx
    · rfl
  rw [hsame, heq, Scalar.eq, hsx, hty]

theorem equals_of_value? (ha : a.value? = some x) (hb : b.value? = some y) :
    a.equals b = decide (x = y) := by
  rw [equals, isNaN_of_value? ha, beq_of_value? ha hb]
  rfl

theorem ordered_of_value? (strict : Bool) (ha : a.value? = some x) (hb : b.value? = some y) :
    a.ordered strict b = .ok (if strict then decide (x < y) else decide (x ≤ y)) := by
  obtain ⟨s, hs, hsx⟩ := scalar?_of_value? ha
  obtain ⟨t, ht, hty⟩ := scalar?_of_value? hb
  have hord : a.ordered strict b = .ok (if strict then s.lt t else s.le t) := by
    cases a <;> cases hs <;> cases b <;> cases ht <;> rfl
  rw [hord, Scalar.lt, Scalar.le, hsx, hty]
  simp only [Extended.lt_eq_decide, Extended.le_eq_decide]

section

variable (ha : a.value? = some x) (hb : b.value? = some y)
include ha hb

theorem less_of_value? : a.less b = .ok (decide (x < y)) :=
  ordered_of_value? true ha hb

theorem atMost_of_value? : a.atMost b = .ok (decide (x ≤ y)) :=
  ordered_of_value? false ha hb

theorem exists_larger : ∃ c, a.larger b = .ok c ∧ c.value? = some (max x y) := by
  refine ⟨if x < y then b else a, ?_, ?_⟩
  · rw [larger, less_of_value? ha hb]
    show Except.ok (if decide (x < y) then b else a) = _
    simp only [decide_eq_true_eq]
  · by_cases h : x < y
    · rw [if_pos h, hb, max_eq_right h.le]
    · rw [if_neg h, ha, max_eq_left (not_lt.mp h)]

theorem exists_smaller : ∃ c, a.smaller b = .ok c ∧ c.value? = some (min x y) := by
  refine ⟨if y < x then b else a, ?_, ?_⟩
  · rw [smaller, less_of_value? hb ha]
    show Except.ok (if decide (y < x) then b else a) = _
    simp only [decide_eq_true_eq]
  · by_cases h : y < x
    · rw [if_pos h, hb, min_eq_right h.le]
    · rw [if_neg h, ha, min_eq_left (not_lt.mp h)]

end

theorem contains_of_value? {items : List Json} (hitems : ∀ v ∈ items, v.IsNumber)
    (hb : b.value? = some y) :
    items.contains b = decide (∃ v ∈ items, v.value? = some y) := by
  rw [Bool.eq_iff_iff, decide_eq_true_iff, List.contains_iff_exists_mem_beq]
  refine exists_congr fun v => and_congr_right fun hv => ?_
  obtain ⟨x, hx⟩ := (hitems v hv).exists_value
  rw [beq_of_value? hb hx, decide_eq_true_iff, hx, Option.some.injEq, eq_comm]

end Comparison

end Json

end Branchwise
