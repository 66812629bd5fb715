import Branchwise.Proofs.Number.Rounding
import Branchwise.Proofs.Synthesis.Verdicts

/-!
# Runs that go further

A run with a higher target, or with more solver calls for each branch, makes the same attempts as
the run with less until that one rests or its limit cuts an attempt short, and then goes on.
-/

namespace Branchwise

open Attempt List Option Scalar

/-! ## Limits -/

namespace Attempt

/-- What uses up the second limit uses up the first, up to a number of calls. -/
def Stricter (n : Nat) (limit limit' : Option Nat) : Prop :=
  ∀ calls ≤ n, usedUp limit' calls → usedUp limit calls

theorem Stricter.refl (n : Nat) (limit : Option Nat) : Stricter n limit limit := fun _ _ h => h

theorem usedUp_map_sub (limit : Option Nat) (spent calls : Nat) :
    usedUp (limit.map (· - spent)) calls = usedUp limit (spent + calls) := by
  cases limit with
  | none => rfl
  | some n =>
    simp only [usedUp, map_some, any_some, decide_eq_decide]
    omega

theorem Stricter.map_sub {limit limit' : Option Nat} {n m spent : Nat}
    (h : Stricter n limit limit') (hm : spent + m ≤ n) :
    Stricter m (limit.map (· - spent)) (limit'.map (· - spent)) := by
  intro calls hcalls hused
  rw [usedUp_map_sub] at hused ⊢
  exact h _ (by omega) hused

end Attempt

/-! ## Reports -/

namespace SynthesisReport

/-- A report has the test cases of another, perhaps followed by more, and covers its branches. -/
structure Extends (r r' : SynthesisReport) : Prop where
  cases_prefix : r.cases <+: r'.cases
  covered_subset : r.covered ⊆ r'.covered

theorem Extends.of_eq {r r' : SynthesisReport} (hcases : r.cases = r'.cases)
    (hcovered : r.covered = r'.covered) : r.Extends r' :=
  ⟨hcases ▸ prefix_rfl, hcovered ▸ List.Subset.refl _⟩

theorem Extends.trans {r r' r'' : SynthesisReport} (h : r.Extends r') (h' : r'.Extends r'') :
    r.Extends r'' :=
  ⟨h.cases_prefix.trans h'.cases_prefix, List.Subset.trans h.covered_subset h'.covered_subset⟩

theorem extends_record (r : SynthesisReport) (reachable : List Branch) (b : Branch)
    (attempt : Attempt) :
    r.Extends (r.record reachable b attempt) ∧
      (r.record reachable b attempt).solverCalls = r.solverCalls + attempt.calls ∧
      (r.record reachable b attempt).budgetExhausted = r.budgetExhausted := by
  cases hstatus : attempt.result.status with
  | sat =>
    obtain ⟨ids, cs, us, ss, -, hc, heq⟩ := exists_record_of_sat r reachable b hstatus
    rw [heq]
    exact ⟨⟨List.prefix_append _ _, fun i hi => (hc.mem_covered i).mpr (.inl hi)⟩, rfl, rfl⟩
  | unsat | unknown =>
    rw [record, hstatus]
    exact ⟨.of_eq rfl rfl, rfl, rfl⟩

def aimAt (r : SynthesisReport) (target : Scalar) : SynthesisReport := { r with target := target }

theorem extends_aimAt (r : SynthesisReport) (target : Scalar) : r.Extends (r.aimAt target) :=
  .of_eq rfl rfl

theorem foldl_cover_aimAt (ids : List Nat) (r : SynthesisReport) (target : Scalar) :
    ids.foldl cover (r.aimAt target) = (ids.foldl cover r).aimAt target := by
  refine foldl_hom (fun r => aimAt r target) fun r id => ?_
  by_cases hcovered : id ∈ r.covered <;> by_cases hunknown : id ∈ r.unknown <;>
    simp [cover, aimAt, hcovered, hunknown]

theorem record_aimAt (r : SynthesisReport) (target : Scalar) (reachable : List Branch) (b : Branch)
    (attempt : Attempt) :
    (r.aimAt target).record reachable b attempt = (r.record reachable b attempt).aimAt target := by
  unfold record
  cases attempt.result.status with
  | sat =>
    have hcover := foldl_cover_aimAt
      (((attempt.path.map FlowPath.branches).getD [b.id]).filter
        fun id => reachable.any fun b => b.id = id)
      { r with solverCalls := r.solverCalls + attempt.calls, attempted := r.attempted ++ [b.id] }
      target
    simp only [aimAt] at hcover ⊢
    rw [hcover]
  | unsat | unknown => rfl

theorem target_record (r : SynthesisReport) (reachable : List Branch) (b : Branch)
    (attempt : Attempt) : (r.record reachable b attempt).target = r.target := by
  have haim : r.record reachable b attempt = (r.record reachable b attempt).aimAt r.target :=
    record_aimAt r r.target reachable b attempt
  rw [haim]
  rfl

end SynthesisReport

/-! ## Budgets -/

namespace Settings

open Binary64

variable {settings s s' : Settings} {x : Binary64} {q : Rat} {k : Int}

theorem ceiling?_real (x : Binary64) : ceiling? (.real x) = x.toRat?.map fun q => q.ceil.toNat := by
  cases x <;> rfl

theorem usedUp_budget_real (hx : settings.budgetFactor = .real x) (hq : x.toRat? = some q)
    (hpos : 0 ≤ q) (branches calls : Nat) :
    usedUp (settings.budget branches) calls ↔
      rounded (q * (max branches 1 : Nat)) < 2 ^ (53 + maxExponent) ∧
        rounded (q * (max branches 1 : Nat)) ≤ calls := by
  have hproduct : (0 : Rat) ≤ q * (max branches 1 : Nat) := by positivity
  have hceil : (rounded (q * (max branches 1 : Nat))).ceil.toNat ≤ calls ↔
      rounded (q * (max branches 1 : Nat)) ≤ calls := by
    rw [Int.toNat_le, Rat.ceil_le_iff]
    norm_cast
  simp only [budget, hx, hq, ceiling?_real, toRat?_ofRat hproduct]
  split_ifs with hrange
  · simp only [usedUp, map_some, any_some, decide_eq_true_eq, hceil, hrange,
      true_and]
  · simp only [usedUp, map_none, any_none, hrange, false_and,
      Bool.false_eq_true]

theorem usedUp_budget_int (hk : settings.budgetFactor.int? = some k) (hpos : 0 ≤ k)
    (branches calls : Nat) :
    usedUp (settings.budget branches) calls ↔
      (k : Rat) * (max branches 1 : Nat) ≤ calls := by
  rw [Solver.budget_of_int? hk]
  obtain ⟨n, rfl⟩ := Int.eq_ofNat_of_zero_le hpos
  simp only [usedUp, any_some, decide_eq_true_eq]
  norm_cast

theorem usedUp_budget_infinite (hx : settings.budgetFactor = .real x) (hq : x.toRat? = none)
    (branches calls : Nat) : usedUp (settings.budget branches) calls = false := by
  simp [budget, hx, hq, usedUp]

theorem factor_cases {f : Scalar} {v : Extended} (h : f.value? = some v) :
    (∃ k : Int, f.int? = some k ∧ v = .fin k) ∨
      (∃ x q, f = .real x ∧ x.toRat? = some q ∧ v = .fin q) ∨
      ∃ x, f = .real x ∧ x.toRat? = none ∧ (v = .negInf ∨ v = .posInf) := by
  cases f with
  | bool b =>
    cases h
    cases b <;> exact .inl ⟨_, rfl, rfl⟩
  | int n =>
    cases h
    exact .inl ⟨n, rfl, rfl⟩
  | real x =>
    cases x with
    | finite negative m e =>
      cases h
      exact .inr (.inl ⟨_, _, rfl, rfl, rfl⟩)
    | infinite negative =>
      cases h
      cases negative
      · exact .inr (.inr ⟨_, rfl, rfl, .inr rfl⟩)
      · exact .inr (.inr ⟨_, rfl, rfl, .inl rfl⟩)
    | nan tag => cases h

/-- Two factors that are both whole or both real, or so few calls that it makes no difference: from
53 bits on a real budget is rounded, and may be below the budget of the same whole number. -/
def Comparable (s s' : Settings) (calls : Nat) : Prop :=
  s.budgetFactor.int?.isSome = s'.budgetFactor.int?.isSome ∨ calls < 2 ^ 53

theorem stricter_budget {n : Nat} (branches : Nat) (hone : (Scalar.int 1).le s.budgetFactor)
    (hle : s.budgetFactor.le s'.budgetFactor) (hkind : Comparable s s' n) :
    Attempt.Stricter n (s.budget branches) (s'.budget branches) := by
  intro calls hcalls hused
  obtain ⟨v, v', hv, hv', hle⟩ := le_eq_true.mp hle
  obtain ⟨_, _, h1, hv1, hone⟩ := le_eq_true.mp hone
  cases h1
  cases hv.symm.trans hv1
  rcases factor_cases hv' with ⟨k', hk', rfl⟩ | ⟨x', q', hx', hq', rfl⟩ | ⟨x', hx', hnone, -⟩
  case inr.inr => cases (usedUp_budget_infinite hx' hnone branches calls).symm.trans hused
  all_goals
    rcases factor_cases hv with ⟨k, hk, rfl⟩ | ⟨x, q, hx, hq, rfl⟩ | ⟨x, -, -, rfl | rfl⟩
  case inl.inr.inr.inl | inr.inl.inr.inr.inl => exact absurd hone Extended.not_fin_le_negInf
  case inl.inr.inr.inr | inr.inl.inr.inr.inr => exact absurd hle Extended.not_posInf_le_fin
  all_goals
    rw [Extended.fin_le_fin] at hone hle
    have hproduct := mul_le_mul_of_nonneg_right hle (Nat.cast_nonneg (α := ℚ) (max branches 1))
  case inl.inl =>
    have hpos : 0 ≤ k := by exact_mod_cast zero_le_one.trans hone
    rw [usedUp_budget_int hk' (hpos.trans (by exact_mod_cast hle))] at hused
    rw [usedUp_budget_int hk hpos]
    exact hproduct.trans hused
  case inr.inl.inr.inl =>
    have hpos : 0 ≤ q := zero_le_one.trans hone
    obtain ⟨hrange, hused⟩ := (usedUp_budget_real hx' hq' (hpos.trans hle) _ _).mp hused
    have hround := rounded_mono (by positivity) hproduct
    exact (usedUp_budget_real hx hq hpos _ _).mpr ⟨hround.trans_lt hrange, hround.trans hused⟩
  -- where only one of the products is rounded, the calls are too few for that to matter
  case inl.inr.inl =>
    have hpos : 0 ≤ q := zero_le_one.trans hone
    have hfew : calls < 2 ^ 53 :=
      hcalls.trans_lt (hkind.resolve_left (by rw [hk', hx]; exact Bool.false_ne_true))
    rw [usedUp_budget_int hk' (by exact_mod_cast hpos.trans hle)] at hused
    have hround : rounded (q * (max branches 1 : Nat)) ≤ calls :=
      (rounded_mono (by positivity) (hproduct.trans hused)).trans_eq (rounded_natCast hfew.le)
    have hrange : (calls : Rat) < 2 ^ (53 + maxExponent) :=
      calc (calls : Rat) < 2 ^ (53 : Int) := by exact_mod_cast hfew
        _ ≤ 2 ^ (53 + maxExponent) := zpow_le_zpow_right₀ (by norm_num) (by decide)
    exact (usedUp_budget_real hx hq hpos _ _).mpr ⟨hround.trans_lt hrange, hround⟩
  case inr.inl.inl =>
    have hpos : 0 ≤ k := by exact_mod_cast zero_le_one.trans hone
    have hpos' : 0 ≤ q' := zero_le_one.trans (hone.trans hle)
    have hfew : calls < 2 ^ 53 :=
      hcalls.trans_lt (hkind.resolve_left (by rw [hk, hx']; exact Bool.true_eq_false.mp))
    rw [usedUp_budget_int hk hpos]
    by_contra hless
    obtain ⟨n, rfl⟩ := Int.eq_ofNat_of_zero_le hpos
    have hnext : ((calls + 1 : Nat) : Rat) ≤ q' * (max branches 1 : Nat) := by
      refine le_trans ?_ hproduct
      push_cast at hless ⊢
      exact_mod_cast not_le.mp hless
    have hround := rounded_mono (by positivity) hnext
    rw [rounded_natCast hfew] at hround
    have hfull := hround.trans ((usedUp_budget_real hx' hq' hpos' _ _).mp hused).2
    exact absurd (Nat.cast_le.mp hfull) (Nat.not_succ_le_self calls)

example : (budget { standard with budgetFactor := .int (2 ^ 53 + 6) } 3,
      budget { standard with budgetFactor := .real (.ofRat (2 ^ 53 + 6) false) } 3) =
    (some (3 * 2 ^ 53 + 18), some (3 * 2 ^ 53 + 16)) := by decide +kernel

end Settings

/-! ## Attempts -/

namespace Solver

open SynthesisReport Branchwise.Attempt

variable {σ : Type} {solver : Solver σ} {a : BranchAnalysis}

section Limits

variable {limit limit' : Option Nat} {n calls : Nat} {reason : String} {s s' : σ} {sweep : Sweep}
  {attempt : Attempt}

theorem Swept.le_calls {conditions : List (String × Option FlowPath)}
    (h : Swept solver limit conditions calls reason s sweep s') : calls ≤ sweep.calls := by
  induction h with
  | done | cut => exact le_rfl
  | sat => exact Nat.le_succ _
  | next _ _ _ _ ih => exact (Nat.le_succ _).trans ih

variable (h : Stricter n limit limit')

include h

theorem Swept.eq_or_cut {conditions : List (String × Option FlowPath)}
    (hswept : Swept solver limit conditions calls reason s sweep s') (hn : sweep.calls ≤ n) :
    Swept solver limit' conditions calls reason s sweep s' ∨
      ∃ k, sweep = .ended (.outOfCalls k) ∧ usedUp limit k := by
  have hleft {calls : Nat} (hle : calls ≤ n) (hleft : ¬usedUp limit calls) :
      ¬usedUp limit' calls := fun hused => hleft (h calls hle hused)
  induction hswept with
  | done => exact .inl .done
  | cut hused => exact .inr ⟨_, rfl, hused⟩
  | sat hfree hask hstatus => exact .inl (.sat (hleft (Nat.le_of_succ_le hn) hfree) hask hstatus)
  | next hfree hask hstatus hrest ih =>
    have hle := Nat.le_of_succ_le (hrest.le_calls.trans hn)
    exact (ih hn).imp_left (.next (hleft hle hfree) hask hstatus)

theorem settle_eq_or_cut {b : Branch} {hasPath : Bool}
    (hsettle : solver.settle limit b hasPath calls reason s = .ok (attempt, s'))
    (hn : calls ≤ n) :
    solver.settle limit' b hasPath calls reason s = .ok (attempt, s') ∨
      attempt.result.status = .unknown ∧ usedUp limit attempt.calls := by
  unfold settle at hsettle ⊢
  by_cases hempty : reason.isEmpty
  · rw [if_pos hempty] at hsettle ⊢
    exact .inl hsettle
  rw [if_neg hempty] at hsettle ⊢
  by_cases hused : usedUp limit calls
  · rw [hused, Bool.not_true, Bool.and_false] at hsettle
    obtain ⟨⟩ := hsettle
    exact .inr ⟨rfl, hused⟩
  · have hused' : usedUp limit' calls = false :=
      Bool.eq_false_iff.mpr fun hused' => hused (h calls hn hused')
    rw [Bool.eq_false_iff.mpr hused] at hsettle
    rw [hused']
    exact .inl hsettle

theorem Tried.eq_or_cut {b : Branch} (htried : Tried solver a b limit s attempt s')
    (hn : attempt.calls ≤ n) :
    Tried solver a b limit' s attempt s' ∨
      attempt.result.status = .unknown ∧ usedUp limit attempt.calls := by
  cases htried with
  | ended hswept =>
    refine (hswept.eq_or_cut h hn).imp .ended ?_
    rintro ⟨k, heq, hused⟩
    obtain ⟨⟩ := heq
    exact ⟨rfl, hused⟩
  | @settled calls _ _ _ _ hswept hsettle =>
    have hcalls : calls ≤ n := by
      rcases (settle_cases hsettle).2.2 with heq | ⟨-, heq⟩ <;> omega
    rcases hswept.eq_or_cut h hcalls with hswept' | ⟨k, heq, -⟩
    · exact (settle_eq_or_cut h hsettle hcalls).imp_left (.settled hswept')
    · cases heq

end Limits

/-! ## Two runs at once -/

theorem extends_of_loop {budget : Option Nat} {fuel : Nat} {r r' : SynthesisReport} {s s' : σ}
    (h : solver.loop a budget fuel r s = .ok (r', s')) : r.Extends r' :=
  loop_induction (P := r.Extends) (fun _ hr => hr.trans (.of_eq rfl rfl))
    (fun _ hr => hr.trans (.of_eq rfl rfl))
    (fun _ _ _ _ _ _ hr _ _ => hr.trans (extends_record _ _ _ _).1) h (.of_eq rfl rfl)

theorem solverCalls_le_of_loop {budget : Option Nat} {fuel : Nat} {r r' : SynthesisReport}
    {s s' : σ} (h : solver.loop a budget fuel r s = .ok (r', s')) :
    r.solverCalls ≤ r'.solverCalls := by
  refine loop_induction (P := fun x => r.solverCalls ≤ x.solverCalls) (fun _ hr => hr)
    (fun _ hr => hr) (fun x b _ _ attempt _ hr _ _ => ?_) h le_rfl
  rw [(extends_record x _ b attempt).2.1]
  exact Nat.le_add_right_of_le hr

theorem Stops.extends {budget : Option Nat} {r r' : SynthesisReport} {s : σ}
    (h : Stops solver a budget r s r') : r'.Extends r := by
  cases h <;> exact .of_eq rfl rfl

theorem exists_stops (solver : Solver σ) (a : BranchAnalysis) {budget : Option Nat}
    {r : SynthesisReport} (h : usedUp budget r.solverCalls) (s : σ) :
    ∃ r', Stops solver a budget r s r' :=
  (stops_or_goesOn solver a budget r s).resolve_right fun ⟨_, hgoes⟩ => hgoes.left h

theorem exists_loop_eq_ok (h : solver.Answers) (budget : Option Nat) (fuel : Nat)
    (r : SynthesisReport) (s : σ) : ∃ r' s', solver.loop a budget fuel r s = .ok (r', s') := by
  induction fuel generalizing r s with
  | zero => exact ⟨r, s, rfl⟩
  | succ fuel ih =>
    rcases stops_or_goesOn solver a budget r s with ⟨r', hstops⟩ | ⟨b, hgoes⟩
    · exact ⟨r', s, hstops.loop_eq fuel⟩
    · obtain ⟨attempt, s', htried⟩ := exists_tried h a b (budget.map (· - r.solverCalls)) s
      rw [hgoes.loop_eq, bind_of_eq_ok htried.solveBranch_eq]
      exact ih _ s'

section Live

variable (hlive : ∀ s, solver.isCancelled s = false) {budget : Option Nat} {r : SynthesisReport}

include hlive

theorem exists_loop_extends (h : solver.Answers) {budget' : Option Nat} {target' : Scalar}
    {fuel : Nat} {r1 : SynthesisReport} {s s1 : σ}
    (hfirst : solver.loop a budget fuel r s = .ok (r1, s1))
    (hbudget : Stricter r1.solverCalls budget budget')
    (htarget : ∀ x, target'.le x → r.target.le x) :
    ∃ r2 s2, solver.loop a budget' fuel (r.aimAt target') s = .ok (r2, s2) ∧ r1.Extends r2 := by
  induction fuel generalizing r s with
  | zero =>
    obtain ⟨⟩ := hfirst
    exact ⟨_, _, rfl, extends_aimAt _ target'⟩
  | succ fuel ih =>
    -- a run that ends with what this report has is extended by whatever the other run finds
    have hstop (hr1 : r1.Extends r) : ∃ r2 s2,
        solver.loop a budget' (fuel + 1) (r.aimAt target') s = .ok (r2, s2) ∧ r1.Extends r2 := by
      obtain ⟨r2, s2, hsecond⟩ := exists_loop_eq_ok (a := a) h budget' (fuel + 1)
        (r.aimAt target') s
      exact ⟨r2, s2, hsecond, hr1.trans ((extends_aimAt r target').trans (extends_of_loop hsecond))⟩
    rcases stops_or_goesOn solver a budget r s with ⟨r', hstops⟩ | ⟨b, hgoes⟩
    · obtain ⟨⟩ := (hstops.loop_eq fuel).symm.trans hfirst
      exact hstop hstops.extends
    have hgoes' : GoesOn solver a budget' (r.aimAt target') s b := by
      refine ⟨by rw [hlive]; decide, fun hreached => hgoes.short ?_, hgoes.next, fun hused => ?_⟩
      · rw [Bool.or_eq_true] at hreached ⊢
        exact hreached.imp_right (htarget _)
      · exact hgoes.left (hbudget _ (solverCalls_le_of_loop hfirst) hused)
    rw [hgoes.loop_eq] at hfirst
    obtain ⟨attempt, s', hattempt, hrest⟩ := exists_of_bind_eq_ok hfirst
    have hspent := solverCalls_le_of_loop hrest
    rw [(extends_record r _ b attempt).2.1] at hspent
    rcases (tried_of_solveBranch h hattempt).eq_or_cut (hbudget.map_sub hspent) le_rfl with
      htried | ⟨hunknown, hused⟩
    · rw [hgoes'.loop_eq, bind_of_eq_ok (show solver.solveBranch a b
        (budget'.map (· - (r.aimAt target').solverCalls)) s = _ from htried.solveBranch_eq),
        record_aimAt]
      exact ih hrest fun x hx => (target_record r _ b attempt).symm ▸ htarget x hx
    · -- nothing is left to spend, so that the first run stops
      have hrecord : (r.record a.reachableBranches b attempt).Extends r := by
        simp only [record, hunknown]
        exact .of_eq rfl rfl
      rw [usedUp_map_sub, ← (extends_record r a.reachableBranches b attempt).2.1] at hused
      obtain ⟨r', hstops⟩ := exists_stops solver a hused s'
      cases fuel with
      | zero =>
        obtain ⟨⟩ := hrest
        exact hstop hrecord
      | succ fuel =>
        obtain ⟨⟩ := (hstops.loop_eq fuel).symm.trans hrest
        exact hstop (hstops.extends.trans hrecord)

/-- Of two runs, the one with the higher target, and with a budget that is looser as far as the
other goes, extends the other. -/
theorem exists_runs_extend (h : solver.Answers) {settings settings' : Settings}
    {target target' : Scalar}
    (htarget : ((Scalar.int 0).lt target && target.le (.int 1)))
    (htarget' : ((Scalar.int 0).lt target' && target'.le (.int 1)))
    (hle : ∀ x, target'.le x → target.le x) (s : σ) :
    ∃ r1 s1 r2 s2, solver.run a settings target s = .ok (r1, s1) ∧
      solver.run a settings' target' s = .ok (r2, s2) ∧
      (Stricter r1.solverCalls (settings.budget a.reachableBranches.length)
          (settings'.budget a.reachableBranches.length) →
        r1.cases <+: r2.cases ∧ r1.coveredSorted ⊆ r2.coveredSorted) := by
  rw [run, if_pos htarget, run, if_pos htarget']
  obtain ⟨r1, s1, hfirst⟩ := exists_loop_eq_ok (a := a) h
    (settings.budget a.reachableBranches.length) (a.reachableBranches.length + 1)
    (.start a.function target a.reachableBranches.length) s
  obtain ⟨r2, s2, hsecond⟩ := exists_loop_eq_ok (a := a) h
    (settings'.budget a.reachableBranches.length) (a.reachableBranches.length + 1)
    (.start a.function target' a.reachableBranches.length) s
  refine ⟨r1, s1, r2, s2, hfirst, hsecond, fun hbudget => ?_⟩
  obtain ⟨r', s', hloop, hextends⟩ := exists_loop_extends hlive h hfirst hbudget hle
  obtain ⟨⟩ := hsecond.symm.trans hloop
  refine ⟨hextends.cases_prefix, fun i hi => ?_⟩
  rw [coveredSorted, mem_mergeSort] at hi ⊢
  exact hextends.covered_subset hi

end Live

/-- As long as nothing cancels it, a run goes at least as far with a higher target, and at least as
far with a greater number of calls for each branch: its test cases begin with those of the other
run, and it covers all that the other covers. -/
theorem run_goes_further (solver : Solver σ) (h : solver.Answers)
    (hlive : ∀ s, solver.isCancelled s = false) (a : BranchAnalysis) (s : σ) :
    (∀ (settings : Settings) (target target' : Scalar),
      ((Scalar.int 0).lt target && target.le (.int 1)) = true →
      ((Scalar.int 0).lt target' && target'.le (.int 1)) = true → target.le target' = true →
      ∃ r₁ s₁ r₂ s₂, solver.run a settings target s = .ok (r₁, s₁) ∧
        solver.run a settings target' s = .ok (r₂, s₂) ∧ r₁.cases <+: r₂.cases ∧
        r₁.coveredSorted ⊆ r₂.coveredSorted) ∧
    ∀ (settings settings' : Settings) (target : Scalar),
      ((Scalar.int 0).lt target && target.le (.int 1)) = true →
      (Scalar.int 1).le settings.budgetFactor = true →
      settings.budgetFactor.le settings'.budgetFactor = true →
      ∃ r₁ s₁ r₂ s₂, solver.run a settings target s = .ok (r₁, s₁) ∧
        solver.run a settings' target s = .ok (r₂, s₂) ∧
        (settings.Comparable settings' r₁.solverCalls →
          r₁.cases <+: r₂.cases ∧ r₁.coveredSorted ⊆ r₂.coveredSorted) := by
  refine ⟨fun settings target target' htarget htarget' hle => ?_,
    fun settings settings' target htarget hone hle => ?_⟩
  · obtain ⟨r1, s1, r2, s2, hfirst, hsecond, hextends⟩ := exists_runs_extend (a := a) hlive h
      htarget htarget' (fun _ => le_trans hle) s
    exact ⟨r1, s1, r2, s2, hfirst, hsecond, hextends (Stricter.refl _ _)⟩
  · obtain ⟨r1, s1, r2, s2, hfirst, hsecond, hextends⟩ := exists_runs_extend (a := a) hlive h
      htarget htarget (fun _ hx => hx) s
    exact ⟨r1, s1, r2, s2, hfirst, hsecond,
      fun hkind => hextends (Settings.stricter_budget _ hone hle hkind)⟩

/-- The answers of a solver that knows how to choose a number that is zero or negative, but not one
that is positive. -/
def onesided (condition : String) : SolveResult :=
  if condition = "(!(x > 0)) && (!(x < 0))" ∨ condition = "x < 0" then .sat []
  else if condition = "(!(x > 0)) && (x < 0)" then .unsat
  else .unknown "too hard"

/-- How many test cases a run on fixed answers finds, and with how many calls. -/
def tally (answer : String → SolveResult) (a : BranchAnalysis) (settings : Settings)
    (target : Scalar) : Option (Nat × Nat) :=
  match (ofAnswers answer).run a settings target () with
  | .ok (r, _) => some (r.cases.length, r.solverCalls)
  | .error _ => none

theorem of_tally {answer : String → SolveResult} {a : BranchAnalysis} {settings : Settings}
    {target : Scalar} {n calls : Nat} {r : SynthesisReport} {s : Unit}
    (htally : tally answer a settings target = some (n, calls))
    (hrun : (ofAnswers answer).run a settings target () = .ok (r, s)) :
    r.cases.length = n ∧ r.solverCalls = calls := by
  rw [tally, hrun] at htally
  obtain ⟨⟩ := htally
  exact ⟨rfl, rfl⟩

/-- A run to half of the branches and one to all of them, and a run with one call for each branch
and one with half a call more. -/
theorem run_goes_further_signs : let half := Scalar.real (.ofRat (1 / 2) false)
    let scant := { Settings.standard with budgetFactor := .int 1 }
    let ample := { Settings.standard with budgetFactor := .real (.ofRat (3 / 2) false) }
    ∃ a, BranchAnalysis.ofFunction (.named .null) twoSigns (some 9) = .ok a ∧
      (∃ r₁ r₂, (ofAnswers onesided).run a .standard half () = .ok (r₁, ()) ∧
        (ofAnswers onesided).run a .standard (.int 1) () = .ok (r₂, ()) ∧
        r₁.cases.length = 1 ∧ r₂.cases.length = 2 ∧ r₁.cases <+: r₂.cases ∧
        r₁.coveredSorted ⊆ r₂.coveredSorted) ∧
      ∃ r₁ r₂, (ofAnswers onesided).run a scant (.int 1) () = .ok (r₁, ()) ∧
        (ofAnswers onesided).run a ample (.int 1) () = .ok (r₂, ()) ∧
        r₁.cases.length = 0 ∧ r₂.cases.length = 1 ∧ r₁.cases <+: r₂.cases ∧
        r₁.coveredSorted ⊆ r₂.coveredSorted := by
  intro half scant ample
  have htest : reportPasses onesided twoSigns (some 9) (fun a _ =>
      decide (tally onesided a .standard half = some (1, 5) ∧
        tally onesided a .standard (.int 1) = some (2, 8) ∧
        tally onesided a scant (.int 1) = some (0, 4) ∧
        tally onesided a ample (.int 1) = some (1, 6))) := by decide +kernel
  obtain ⟨a, -, ha, -, htallies⟩ := exists_of_reportPasses htest
  obtain ⟨hhalf, hall, hscant, hample⟩ := of_decide_eq_true htallies
  obtain ⟨htargets, hfactors⟩ := run_goes_further (ofAnswers onesided)
    (answersBy_ofAnswers onesided).answers (fun _ => rfl) a ()
  refine ⟨a, ha, ?_, ?_⟩
  · obtain ⟨r₁, s₁, r₂, s₂, h₁, h₂, hextends⟩ := htargets .standard half (.int 1)
      (by decide +kernel) (by decide) (by decide +kernel)
    exact ⟨r₁, r₂, h₁, h₂, (of_tally hhalf h₁).1, (of_tally hall h₂).1, hextends⟩
  · obtain ⟨r₁, s₁, r₂, s₂, h₁, h₂, hextends⟩ := hfactors scant ample (.int 1) (by decide)
      (by decide) (by decide +kernel)
    obtain ⟨hcases, hcalls⟩ := of_tally hscant h₁
    have hcomparable : scant.Comparable ample r₁.solverCalls := .inr (by rw [hcalls]; norm_num)
    exact ⟨r₁, r₂, h₁, h₂, hcases, (of_tally hample h₂).1, hextends hcomparable⟩

end Solver

end Branchwise
