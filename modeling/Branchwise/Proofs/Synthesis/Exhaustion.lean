import Branchwise.Proofs.Synthesis.Extension

/-!
# Runs that use up their calls

An attempt that stops at its limit, with conditions of its branch still to be tried, leaves its
branch unknown, and it is the last attempt.  If there is no other branch to attempt, the report does
not tell the run from one that has settled every branch.
-/

namespace Branchwise

open List Option

namespace Solver

open SynthesisReport Branchwise.Attempt

variable {σ : Type} {solver : Solver σ} {a : BranchAnalysis} {budget : Option Nat}
  {r₀ r : SynthesisReport} {s₀ s s' : σ} {b : Branch} {attempt : Attempt}

/-! ## The attempts of a run -/

def attempt? (solver : Solver σ) (a : BranchAnalysis) (budget : Option Nat) (r : SynthesisReport)
    (s : σ) : Option (Branch × Attempt × σ) :=
  if solver.isCancelled s || (r.total = 0 || r.targetReached) || usedUp budget r.solverCalls then
    none
  else do
    let b ← r.next? a.reachableBranches
    let (attempt, s') ← (solver.solveBranch a b (budget.map (· - r.solverCalls)) s).toOption
    return (b, attempt, s')

def after (solver : Solver σ) (a : BranchAnalysis) (budget : Option Nat) (r₀ : SynthesisReport)
    (s₀ : σ) : Nat → Option (SynthesisReport × σ)
  | 0 => some (r₀, s₀)
  | n + 1 => do
    let (r, s) ← solver.after a budget r₀ s₀ n
    let (b, attempt, s') ← solver.attempt? a budget r s
    return (r.record a.reachableBranches b attempt, s')

/-- Whether an attempt stops before it has tried every condition of a branch, with none of them
satisfied. -/
def stopsShort (solver : Solver σ) (a : BranchAnalysis) (b : Branch) (limit : Option Nat) (s : σ) :
    Bool :=
  match solver.sweep limit (a.candidates b) 0 "" s with
  | .ok (.ended attempt, _) => attempt.result.status != .sat
  | _ => false

/-- The branch whose attempt, after some others of a run, stops short. -/
def cutShort? (solver : Solver σ) (a : BranchAnalysis) (budget : Option Nat) (r₀ : SynthesisReport)
    (s₀ : σ) (n : Nat) : Option Branch := do
  let (r, s) ← solver.after a budget r₀ s₀ n
  let (b, _) ← solver.attempt? a budget r s
  if solver.stopsShort a b (budget.map (· - r.solverCalls)) s then some b else none

theorem spent_of_stopsShort (h : solver.Answers) {limit : Option Nat}
    (hshort : solver.stopsShort a b limit s)
    (hattempt : solver.solveBranch a b limit s = .ok (attempt, s')) :
    attempt.result.status = .unknown ∧ usedUp limit attempt.calls := by
  unfold stopsShort at hshort
  cases tried_of_solveBranch h hattempt with
  | ended hswept =>
    rw [hswept.sweep_eq] at hshort
    rcases hswept.of_ended with ⟨heq, hused⟩ | ⟨hsat, -⟩
    · rw [heq]
      exact ⟨rfl, hused⟩
    · simp [hsat] at hshort
  | settled hswept _ =>
    rw [hswept.sweep_eq] at hshort
    cases hshort

/-! ## What becomes of the run -/

theorem goesOn_of_attempt? (h : solver.attempt? a budget r s = some (b, attempt, s')) :
    GoesOn solver a budget r s b ∧
      solver.solveBranch a b (budget.map (· - r.solverCalls)) s = .ok (attempt, s') := by
  unfold attempt? at h
  split at h
  · cases h
  rename_i hgoes
  rw [Bool.or_eq_true, Bool.or_eq_true, not_or, not_or] at hgoes
  obtain ⟨b', hnext, h⟩ := bind_eq_some_iff.mp h
  obtain ⟨⟨attempt', s1⟩, hattempt, h⟩ := bind_eq_some_iff.mp h
  obtain ⟨⟩ := h
  exact ⟨⟨hgoes.1.1, hgoes.1.2, hnext, hgoes.2⟩, eq_ok_of_toOption hattempt⟩

theorem goes_on_after (h : solver.Answers)
    (hsorted : a.reachableBranches.Pairwise fun b b' => b.id < b'.id)
    (h0 : Accounts a.reachableBranches budget r₀) {n : Nat}
    (hafter : solver.after a budget r₀ s₀ n = some (r, s)) :
    Accounts a.reachableBranches budget r ∧ r.budgetExhausted = r₀.budgetExhausted ∧
      r.attempted.length = r₀.attempted.length + n ∧
      ∀ fuel, solver.loop a budget (fuel + n) r₀ s₀ = solver.loop a budget fuel r s := by
  induction n generalizing r s with
  | zero =>
    obtain ⟨⟩ := hafter
    exact ⟨h0, rfl, rfl, fun _ => rfl⟩
  | succ n ih =>
    obtain ⟨⟨r1, s1⟩, hbefore, hafter⟩ := bind_eq_some_iff.mp hafter
    obtain ⟨⟨b, attempt, s'⟩, hattempt, hafter⟩ := bind_eq_some_iff.mp hafter
    obtain ⟨⟩ := hafter
    obtain ⟨hr, hexhausted, hlength, hloop⟩ := ih hbefore
    obtain ⟨hgoes, hsolved⟩ := goesOn_of_attempt? hattempt
    obtain ⟨attempt', s'', hsolved', hr', hlonger⟩ :=
      exists_attempt h hsorted hr hgoes.next hgoes.left s1
    obtain ⟨⟩ := hsolved.symm.trans hsolved'
    refine ⟨hr', (extends_record r1 _ b attempt).2.2.trans hexhausted, ?_, fun fuel => ?_⟩
    · rw [hlonger, length_append, hlength, length_singleton, Nat.add_assoc]
    · rw [← Nat.add_assoc, Nat.add_right_comm, hloop, hgoes.loop_eq,
        bind_of_eq_ok hsolved]

/-- An attempt that stops short is the last of its run: the branch is left unknown, and all calls
are used up.  Unless the run is cancelled or covers as much as is wanted, it says so exactly if a
branch is left that is not settled. -/
theorem exhausted_iff_of_cutShort? (solver : Solver σ) (h : solver.Answers) {f : FunctionDecl}
    {body : Tree} {limit : Option Nat} {a : BranchAnalysis}
    (ha : BranchAnalysis.ofFunction f body limit = .ok a) (settings : Settings) (target : Scalar)
    (htarget : ((Scalar.int 0).lt target && target.le (.int 1)) = true) (s₀ : σ) :
    let total := a.reachableBranches.length
    let budget := settings.budget total
    ∃ r s', solver.run a settings target s₀ = .ok (r, s') ∧
      ∀ n b, solver.cutShort? a budget (.start a.function target total) s₀ n = some b →
        r.attempted.length = n + 1 ∧ r.attempted.getLast? = some b.id ∧ b.id ∈ r.unknown ∧
          budget = some r.solverCalls ∧
          (r.cancelled = false → r.targetReached = false →
            (r.budgetExhausted = true ↔
              ∃ b' ∈ a.reachableBranches, r.isSettled b'.id = false)) := by
  intro total budget
  have hsorted := BranchAnalysis.pairwise_reachableBranches ha
  have h0 := accounts_start a.function target a.reachableBranches budget
  obtain ⟨r', s'', hloop, -, -⟩ := exists_loop h hsorted budget (total + 1) s₀ h0
    (Nat.lt_succ_self _)
  refine ⟨r', s'', by rw [run, if_pos htarget]; exact hloop, fun n b hcut => ?_⟩
  obtain ⟨⟨r, s⟩, hafter, hcut⟩ := bind_eq_some_iff.mp hcut
  obtain ⟨⟨b', attempt, s'⟩, hattempt, hcut⟩ := bind_eq_some_iff.mp hcut
  obtain ⟨hshort, hb⟩ := ite_none_right_eq_some.mp hcut
  obtain rfl := Option.some.inj hb
  obtain ⟨hunknown, hspent⟩ := spent_of_stopsShort h hshort (goesOn_of_attempt? hattempt).2
  obtain ⟨hr, hexhausted, hlength, hgoes⟩ := goes_on_after h hsorted h0
    (show solver.after a budget _ s₀ (n + 1) = _ from bind_eq_some_iff.mpr
      ⟨(r, s), hafter, bind_eq_some_iff.mpr ⟨_, hattempt, rfl⟩⟩)
  rw [usedUp_map_sub, ← (extends_record r a.reachableBranches b' attempt).2.1] at hspent
  have hlast : (r.record a.reachableBranches b' attempt).attempted.getLast? = some b'.id ∧
      b'.id ∈ (r.record a.reachableBranches b' attempt).unknown := by
    simp only [record, hunknown, getLast?_concat, mem_concat_self, and_self]
  generalize r.record a.reachableBranches b' attempt = r1 at *
  replace hlength : r1.attempted.length = n + 1 := hlength.trans (Nat.zero_add _)
  have hmade := hr.length_attempted_le
  -- there is fuel for one more round, in which nothing is attempted
  obtain ⟨fuel, hfuel⟩ : ∃ fuel, total + 1 = fuel + 1 + (n + 1) :=
    ⟨r1.total - (n + 1), by have := hr.total_eq; omega⟩
  obtain ⟨r2, hstops⟩ := exists_stops solver a hspent s'
  rw [hfuel, hgoes, hstops.loop_eq] at hloop
  obtain ⟨rfl, -⟩ := Prod.mk.inj (Except.ok.inj hloop)
  obtain ⟨k, hk, hle⟩ : ∃ k, budget = some k ∧ k ≤ r1.solverCalls := by
    simpa [usedUp, Option.any_eq_true] using hspent
  have hall : budget = some r1.solverCalls := by
    rw [hk, Nat.le_antisymm hle (hr.calls_le k hk)]
  cases hstops with
  | cancelled => exact ⟨hlength, hlast.1, hlast.2, hall, fun h => absurd h (by simp)⟩
  | reached _ hreached =>
    refine ⟨hlength, hlast.1, hlast.2, hall, fun _ hopen => ?_⟩
    rw [hopen, Bool.or_false, decide_eq_true_eq] at hreached
    omega
  | settled _ _ hnext =>
    refine ⟨hlength, hlast.1, hlast.2, hall, fun _ _ => ⟨fun h => ?_, fun h => ?_⟩⟩
    · cases hexhausted.symm.trans h
    · obtain ⟨b, hb, hopen⟩ := h
      exact absurd hopen (by simpa using find?_eq_none.mp hnext b hb)
  | @exhausted b _ _ hnext _ =>
    have hopen : r1.isSettled b.id = false := by simpa using find?_some hnext
    exact ⟨hlength, hlast.1, hlast.2, hall, fun _ _ =>
      ⟨fun _ => ⟨b, mem_of_find?_eq_some hnext, hopen⟩, fun _ => rfl⟩⟩

/-- The number of the branch whose attempt, after some others of a run on fixed answers, stops
short; and whether the run is cancelled, covers all branches and says that its calls are used up. -/
def ending (answer : String → SolveResult) (a : BranchAnalysis) (settings : Settings) (n : Nat) :
    Option (Nat × Bool × Bool × Bool) := do
  let total := a.reachableBranches.length
  let b ← (ofAnswers answer).cutShort? a (settings.budget total) (.start a.function (.int 1) total)
    () n
  let (r, _) ← ((ofAnswers answer).run a settings (.int 1) ()).toOption
  return (b.id, r.cancelled, r.targetReached, r.budgetExhausted)

theorem exists_of_ending {answer : String → SolveResult} {settings : Settings} {n i : Nat}
    {cancelled reached exhausted : Bool}
    (h : ending answer a settings n = some (i, cancelled, reached, exhausted)) :
    let total := a.reachableBranches.length
    ∃ b r, (ofAnswers answer).cutShort? a (settings.budget total)
        (.start a.function (.int 1) total) () n = some b ∧ b.id = i ∧
      (ofAnswers answer).run a settings (.int 1) () = .ok (r, ()) ∧
      r.cancelled = cancelled ∧ r.targetReached = reached ∧ r.budgetExhausted = exhausted := by
  obtain ⟨b, hb, h⟩ := bind_eq_some_iff.mp h
  obtain ⟨⟨r, _⟩, hr, h⟩ := bind_eq_some_iff.mp h
  obtain ⟨⟩ := h
  exact ⟨b, r, hb, rfl, eq_ok_of_toOption hr, rfl, rfl, rfl⟩

def scant : Settings := { Settings.standard with budgetFactor := .int 1 }

/-- The second attempt stops short, and leaves two branches of which the run has nothing to say. -/
theorem exhausted_iff_of_cutShort?_signs :
    ∃ a r, BranchAnalysis.ofFunction (.named .null) twoSigns (some 9) = .ok a ∧
      (ofAnswers onesided).run a scant (.int 1) () = .ok (r, ()) ∧
      r.attempted.length = 2 ∧ 1 ∈ r.unknown ∧ r.budgetExhausted = true ∧
      ∃ b ∈ a.reachableBranches, r.isSettled b.id = false := by
  have htest : reportPasses onesided twoSigns (some 9) (fun a _ =>
      decide (ending onesided a scant 1 = some (1, false, false, true))) := by decide +kernel
  obtain ⟨a, -, ha, -, hending⟩ := exists_of_reportPasses htest
  obtain ⟨b, r, hcut, hid, hrun, hlive, hopen, hexhausted⟩ :=
    exists_of_ending (of_decide_eq_true hending)
  obtain ⟨r', s', hrun', hlast⟩ := exhausted_iff_of_cutShort? (ofAnswers onesided)
    (answersBy_ofAnswers onesided).answers ha scant (.int 1) (by decide) ()
  obtain ⟨rfl, -⟩ := Prod.mk.inj (Except.ok.inj (hrun.symm.trans hrun'))
  obtain ⟨hlength, -, hunknown, -, hiff⟩ := hlast 1 b hcut
  exact ⟨a, r, ha, hrun, hlength, hid ▸ hunknown, hexhausted, (hiff hlive hopen).mp hexhausted⟩

def negative (condition : String) : SolveResult :=
  if condition = "(!(x > 0)) && (x < 0)" then .sat [] else .unsat

/-- A run may leave a branch unknown because its calls are used up, cover less than is wanted, and
not say that its calls are used up. -/
theorem not_exhausted_of_cutShort? :
    ∃ a b r, BranchAnalysis.ofFunction (.named .null) twoSigns (some 9) = .ok a ∧
      (ofAnswers negative).cutShort? a (scant.budget a.reachableBranches.length)
        (.start a.function (.int 1) a.reachableBranches.length) () 2 = some b ∧
      (ofAnswers negative).run a scant (.int 1) () = .ok (r, ()) ∧
      r.cancelled = false ∧ r.targetReached = false ∧ r.budgetExhausted = false := by
  have htest : reportPasses negative twoSigns (some 9) (fun a _ =>
      decide (ending negative a scant 2 = some (3, false, false, false))) := by
    decide +kernel
  obtain ⟨a, -, ha, -, hending⟩ := exists_of_reportPasses htest
  obtain ⟨b, r, hcut, -, hrun, hflags⟩ := exists_of_ending (of_decide_eq_true hending)
  exact ⟨a, b, r, ha, hcut, hrun, hflags⟩

end Solver

end Branchwise
