import Branchwise.Proofs.Domain.Encoding
import Branchwise.Proofs.Guard.Connectives

/-!
# What a guard says of a name

The comparisons that are read off a guard hold whenever the guard does: those of the outermost
conjunction are all true where it is, and a literal on the left is compared the other way round.
What a name is compared with is a number, which may be infinite but never fails to be one.
-/

namespace Branchwise

open List Lowering

namespace Value

variable {K : Type} [Field K] [LinearOrder K] [IsStrictOrderedRing K]

/-- A relational operator compares the numbers that its operands count as. -/
theorem operate_eq_holds {op : BinaryOp} {r : Comparison} (h : Lowering.comparison? op = some r)
    (v w : Value K) : operate op v w = .ok (.bool (r.holds v.toReal w.toReal)) := by
  rw [← onNumbers_holds]
  cases op with
  | eq | le | lt => cases h; rfl
  | ne =>
    cases h
    rw [operate, Value.eq, not_onNumbers]
    simp only [Comparison.holds, decide_not]
  | ge =>
    cases h
    rw [operate, Value.le, onNumbers_swap]
    rfl
  | gt =>
    cases h
    rw [operate, Value.lt, onNumbers_swap]
    rfl
  | or | and | add | sub | mul | div | rem => cases h

end Value

namespace Expr

variable {K : Type} [Field K] [LinearOrder K] {scope : NameScope} {a : InputValues K}
  {e : Expr} {x : String} {op : BinaryOp} {c : Scalar}

theorem truthIs_of_mem_conjuncts (h : e.TruthIs scope a true) :
    ∀ t ∈ e.conjuncts, t.TruthIs scope a true := by
  fun_induction conjuncts e with
  | case1 l r ihl ihr =>
    obtain ⟨hl, hr⟩ := truthIs_and_iff.mp h
    exact forall_mem_append.mpr ⟨ihl hl, ihr hr⟩
  | case2 e => exact forall_mem_singleton.mpr h

theorem exists_of_comparison? (h : comparison? x e = some (op, c)) :
    ∃ op' l r, e = binary op' l r ∧ op'.isRelational ∧
      (l = name x ∧ r.constant? = some c ∧ op = op' ∨
        r = name x ∧ l.constant? = some c ∧ op = op'.flip) := by
  unfold comparison? at h
  split at h
  · rename_i op' l r
    split at h
    · rename_i hop
      refine ⟨op', l, r, rfl, hop, ?_⟩
      by_cases hr : r = name x
      · simp only [hr, if_true, Option.map_eq_some_iff, Prod.mk.injEq] at h
        obtain ⟨c', hc, rfl, rfl⟩ := h
        exact .inr ⟨hr, hc, rfl⟩
      · simp only [hr, if_false] at h
        split at h
        · obtain ⟨c', hc, heq⟩ := Option.map_eq_some_iff.mp h
          obtain ⟨rfl, rfl⟩ := Prod.mk.inj heq
          exact .inl ⟨‹_›, hc, rfl⟩
        · cases h
    · cases h
  · cases h

theorem exists_ofScalar {w : Value K} (hc : e.constant? = some c)
    (hw : e.evaluate scope a = .ok w) :
    ∃ u, Value.ofScalar c = .ok u ∧ u.toReal = w.toReal := by
  cases e with
  | int n => cases hc; exact ⟨w, hw, rfl⟩
  | real y => cases hc; exact ⟨w, hw, rfl⟩
  | bool b =>
    cases hc
    cases hw
    exact ⟨_, rfl, by cases b <;> simp [Value.toReal]⟩
  | name | unary | binary => cases hc

theorem exists_of_truthIs_relational {l r : Expr} (hop : op.isRelational)
    (h : (binary op l r).TruthIs scope a true) :
    ∃ v w u, l.evaluate scope a = .ok v ∧ r.evaluate scope a = .ok w ∧
      Value.operate op v w = .ok u ∧ u.truth := by
  obtain ⟨u, hu, htruth⟩ := h
  cases hl : l.evaluate scope a with
  | error fault => cases (evaluate_binary_of_error hl).symm.trans hu
  | ok v =>
    have hnone : decided? op v = none := by
      cases op with
      | or | and => cases hop
      | _ => rfl
    rw [evaluate_binary_of_ok hl, hnone] at hu
    cases hr : r.evaluate scope a with
    | error fault => rw [hr] at hu; cases hu
    | ok w => exact ⟨v, w, u, rfl, rfl, by rwa [hr] at hu, htruth⟩

omit [Field K] in
theorem comparison?_flip (hop : op.isRelational) :
    ∃ r r', Lowering.comparison? op = some r ∧ Lowering.comparison? op.flip = some r' ∧
      ∀ p q : K, r'.holds p q = r.holds q p := by
  cases op with
  | eq | ne => exact ⟨_, _, rfl, rfl, fun p q => by simp [Comparison.holds, eq_comm]⟩
  | le | ge | lt | gt => exact ⟨_, _, rfl, rfl, fun _ _ => rfl⟩
  | or | and | add | sub | mul | div | rem => cases hop

variable [IsStrictOrderedRing K]

/-- Where a guard is true, every comparison that is read off it for a name holds between the value
of the name, a truth value counting as one or zero, and that of the literal. -/
theorem comparisonsOn_hold (h : e.TruthIs scope a true) (hmem : (op, c) ∈ e.comparisonsOn x) :
    ∃ r v u, Lowering.comparison? op = some r ∧ (name x).evaluate scope a = .ok v ∧
      Value.ofScalar c = .ok u ∧ r.holds v.toReal u.toReal = true := by
  obtain ⟨t, ht, hcomparison⟩ := List.mem_filterMap.mp hmem
  have htrue := truthIs_of_mem_conjuncts h t ht
  obtain ⟨op', l, r, rfl, hop, hsides⟩ := exists_of_comparison? hcomparison
  obtain ⟨v, w, u, hv, hw, hu, htruth⟩ := exists_of_truthIs_relational hop htrue
  obtain ⟨s, s', hs, hs', hflip⟩ := comparison?_flip (K := K) hop
  cases (Value.operate_eq_holds hs v w).symm.trans hu
  rcases hsides with ⟨rfl, hc, rfl⟩ | ⟨rfl, hc, rfl⟩
  · obtain ⟨k, hk, hreal⟩ := exists_ofScalar hc hw
    exact ⟨s, v, k, hs, hv, hk, by rwa [hreal]⟩
  · obtain ⟨k, hk, hreal⟩ := exists_ofScalar hc hv
    exact ⟨s', w, k, hs', hw, hk, by rwa [hreal, hflip]⟩

def inRange : Expr :=
  .binary .and (.binary .and (.binary .le (.int 0) (.name "x")) (.binary .lt (.name "x") (.int 9)))
    (.binary .or (.name "x") (.binary .eq (.name "x") (.int 7)))

def three : InputValues ℚ := ⟨fun _ => 3, fun _ => 3, fun _ => true⟩

theorem comparisonsOn_hold_inRange :
    inRange.comparisonsOn "x" = [(.ge, .int 0), (.lt, .int 9)] ∧
      inRange.TruthIs ⟨fun _ => .int, .empty⟩ three true ∧
      Comparison.ge.holds (3 : ℚ) 0 = true := by
  have htrue : inRange.TruthIs ⟨fun _ => .int, .empty⟩ three true := ⟨.bool true, by rfl, rfl⟩
  refine ⟨rfl, htrue, ?_⟩
  obtain ⟨r, v, u, hr, hv, hu, hholds⟩ :=
    comparisonsOn_hold htrue (show (.ge, .int 0) ∈ inRange.comparisonsOn "x" from mem_cons_self)
  cases hr
  cases hv
  cases hu
  simpa [Value.toReal, InputValues.get, three] using hholds

/-! ## Literals -/

/-- No literal of an expression fails to be a number. -/
def HasNumbers : Expr → Prop
  | real x => (Scalar.real x).value?.isSome
  | unary _ e => e.HasNumbers
  | binary _ l r => l.HasNumbers ∧ r.HasNumbers
  | _ => True

theorem HasNumbers.of_mem_conjuncts (h : e.HasNumbers) : ∀ t ∈ e.conjuncts, t.HasNumbers := by
  fun_induction conjuncts e with
  | case1 l r ihl ihr => exact forall_mem_append.mpr ⟨ihl h.1, ihr h.2⟩
  | case2 e => exact forall_mem_singleton.mpr h

theorem HasNumbers.of_constant? (h : e.HasNumbers) (hc : e.constant? = some c) :
    c.value?.isSome := by
  cases e with
  | int | bool => cases hc; rfl
  | real => cases hc; exact h
  | name | unary | binary => cases hc

theorem HasNumbers.of_mem_comparisonsOn (h : e.HasNumbers) (hmem : (op, c) ∈ e.comparisonsOn x) :
    c.value?.isSome := by
  obtain ⟨t, ht, hc⟩ := List.mem_filterMap.mp hmem
  have hparts := h.of_mem_conjuncts t ht
  obtain ⟨_, l, r, rfl, -, ⟨-, hr, -⟩ | ⟨-, hl, -⟩⟩ := exists_of_comparison? hc
  · exact hparts.2.of_constant? hr
  · exact hparts.1.of_constant? hl

end Expr

theorem Number.isSome_value?_ofDecimal (d : Decimal) :
    (Scalar.real (ofDecimal d)).value?.isSome := by
  unfold ofDecimal Binary64.ofRat
  dsimp only
  split_ifs <;> rfl

theorem Guard.Written.hasNumbers {k : Nat} {s : List Char} {e : Expr} (h : Written .full k s e) :
    e.HasNumbers := by
  induction h with
  | literal h =>
    cases h with
    | real => exact Number.isSome_value?_ofDecimal _
    | _ => trivial
  | name => trivial
  | paren _ _ _ ih | not _ _ ih | neg _ _ _ ih | plus _ _ _ ih | looser _ ih => exact ih
  | @fold _ _ e _ _ _ _ hnumber ih =>
    cases e with
    | int => cases hnumber; trivial
    | real r =>
      cases hnumber
      cases r with
      | finite | infinite => rfl
      | nan => cases ih
    | name | bool | unary | binary => cases hnumber
  | binary _ _ _ _ ihl ihr => exact ⟨ihl, ihr⟩

theorem Guard.hasNumbers_of_parse {text : String} {e : Expr} (h : parse text = .ok e) :
    e.HasNumbers := by
  obtain ⟨_, _, _, -, -, -, hwritten⟩ := parse_eq_ok_iff.mp h
  exact hwritten.hasNumbers

end Branchwise
