import Branchwise.Proofs.Synthesis.Account

/-!
# Verdicts of a consistent solver

A solver is consistent if its answers depend on nothing but the condition.  Of a branch that a run
has found infeasible, such a solver has rejected every listed path, so no branch has two verdicts.
`Judged` is what one attempt keeps, and `loop_induction` carries it through a run.
-/

namespace Branchwise

open List BranchAnalysis

inductive Verdict where
  | covered
  | infeasible
  | unknown
deriving DecidableEq

/-- The branches that a report lists under a verdict. -/
def SynthesisReport.listed (r : SynthesisReport) : Verdict → List Nat
  | .covered => r.coveredSorted
  | .infeasible => r.infeasible
  | .unknown => r.unknown

namespace Solver

open SynthesisReport

variable {σ : Type} {solver : Solver σ} {answer : String → SolveResult} {s s' : σ}
  {f : FunctionDecl} {body : Tree} {a : BranchAnalysis} {limit : Option Nat} {b : Branch}
  {conditions : List (String × Option FlowPath)} {calls : Nat} {reason : String}
  {attempt : Attempt} {r : SynthesisReport} {i : Nat}

/-- A solver whose answer depends on the condition only. -/
def AnswersBy (solver : Solver σ) (answer : String → SolveResult) : Prop :=
  ∀ condition s, ∃ s', solver.ask condition s = .ok (answer condition, s')

theorem AnswersBy.answers (h : solver.AnswersBy answer) : solver.Answers := fun condition s => by
  obtain ⟨s', hs'⟩ := h condition s
  exact ⟨_, s', hs'⟩

theorem AnswersBy.eq_of_ask (h : solver.AnswersBy answer) {condition : String}
    {result : SolveResult} (hask : solver.ask condition s = .ok (result, s')) :
    result = answer condition := by
  obtain ⟨s1, hs1⟩ := h condition s
  exact (Prod.mk.inj (Except.ok.inj (hask.symm.trans hs1))).1

/-- An answer that leaves a condition open says why. -/
def GivesReasons (answer : String → SolveResult) : Prop :=
  ∀ condition, (answer condition).status = .unknown → (answer condition).reason ≠ ""

/-- A condition is not satisfied, and where reasons are given it is refuted. -/
def Rejects (answer : String → SolveResult) (condition : String) : Prop :=
  (answer condition).status ≠ .sat ∧
    (GivesReasons answer → (answer condition).status = .unsat)

/-! ## Attempts -/

/-- Conditions that leave a branch unsolved are not satisfied.  They are refuted, or one is left
unknown, for the reason that is kept. -/
theorem Swept.of_unsolved (h : solver.AnswersBy answer) {before : String} {n : Nat}
    (hswept : Swept solver limit conditions calls before s (.unsolved n reason) s') :
    (∀ x ∈ conditions, (answer x.1).status ≠ .sat) ∧
      ((∀ x ∈ conditions, (answer x.1).status = .unsat) ∧ reason = before ∨
        ∃ x ∈ conditions, (answer x.1).status = .unknown ∧ reason = (answer x.1).reason) := by
  generalize hsweep : Sweep.unsolved n reason = sweep at hswept
  induction hswept with
  | done =>
    obtain ⟨⟩ := hsweep
    exact ⟨nofun, .inl ⟨nofun, rfl⟩⟩
  | cut | sat => cases hsweep
  | next _ hask hstatus _ ih =>
    obtain rfl := h.eq_of_ask hask
    obtain ⟨hsat, hreason⟩ := ih hsweep
    rw [forall_mem_cons, forall_mem_cons]
    rcases hstatus with ⟨hstatus, rfl⟩ | ⟨hstatus, rfl⟩
    · refine ⟨⟨by rw [hstatus]; decide, hsat⟩, hreason.imp (And.imp_left (.intro hstatus)) ?_⟩
      exact fun ⟨x, hx, hshows⟩ => ⟨x, mem_cons_of_mem _ hx, hshows⟩
    · refine ⟨⟨by rw [hstatus]; decide, hsat⟩, .inr ?_⟩
      rcases hreason with ⟨-, heq⟩ | ⟨x, hx, hshows⟩
      · exact ⟨_, mem_cons_self, hstatus, heq⟩
      · exact ⟨x, mem_cons_of_mem _ hx, hshows⟩

/-- What an attempt shows: a path that it gives is satisfied and goes through the branch, and if it
finds the branch infeasible, all its conditions are rejected. -/
structure Attempt.Shows (answer : String → SolveResult) (a : BranchAnalysis) (b : Branch)
    (attempt : Attempt) : Prop where
  path : attempt.result.status = .sat → ∀ p, attempt.path = some p →
    b.id ∈ p.branches ∧ p ∈ a.paths ∧ (answer p.condition).status = .sat
  rejected : attempt.result.status = .unsat → ∀ x ∈ a.candidates b, Rejects answer x.1

theorem Tried.shows (h : solver.AnswersBy answer) (htried : Tried solver a b limit s attempt s') :
    Attempt.Shows answer a b attempt := by
  refine ⟨fun _ p hp => ?_, fun hunsat => ?_⟩
  · obtain ⟨hmem, hb, hsat, s1, s2, hask⟩ := htried.of_path hp
    exact ⟨hb, hmem, h.eq_of_ask hask ▸ hsat⟩
  cases htried with
  | ended hswept =>
    rcases hswept.of_ended with ⟨hcut, -⟩ | ⟨hsat, -⟩
    · rw [hcut] at hunsat
      cases hunsat
    · cases hsat.symm.trans hunsat
  | settled hswept hsettle =>
    obtain ⟨hsat, hreason⟩ := hswept.of_unsolved h
    refine fun x hx => ⟨hsat x hx, fun hreasons => ?_⟩
    rcases hreason with ⟨hall, -⟩ | ⟨y, -, hunknown, hreason⟩
    · exact hall x hx
    · exact absurd (hreason.symm.trans ((settle_cases hsettle).2.1 hunsat)) (hreasons y.1 hunknown)

/-! ## Runs -/

/-- What holds of a report at the start of a run holds at its end, if entering an attempt keeps it
and a mark that says why the run has ended does. -/
theorem loop_induction {P : SynthesisReport → Prop} {budget : Option Nat}
    (hcancelled : ∀ r, P r → P { r with cancelled := true })
    (hexhausted : ∀ r, P r → P { r with budgetExhausted := true })
    (hrecord : ∀ r b limit s attempt s', P r → r.next? a.reachableBranches = some b →
      solver.solveBranch a b limit s = .ok (attempt, s') →
      P (r.record a.reachableBranches b attempt)) {fuel : Nat} {r' : SynthesisReport}
    (hloop : solver.loop a budget fuel r s = .ok (r', s')) (hr : P r) : P r' := by
  induction fuel generalizing r s with
  | zero =>
    obtain ⟨⟩ := hloop
    exact hr
  | succ fuel ih =>
    rcases stops_or_goesOn solver a budget r s with ⟨r1, hstops⟩ | ⟨b, hgoes⟩
    · obtain ⟨⟩ := (hstops.loop_eq fuel).symm.trans hloop
      cases hstops with
      | cancelled => exact hcancelled r hr
      | reached | settled => exact hr
      | exhausted => exact hexhausted r hr
    · rw [hgoes.loop_eq] at hloop
      obtain ⟨attempt, s1, hattempt, hrest⟩ := exists_of_bind_eq_ok hloop
      exact ih hrest (hrecord r b _ s attempt s1 hr hgoes.next hattempt)

/-- No branch has two verdicts, and the conditions of those found infeasible are rejected. -/
structure Judged (answer : String → SolveResult) (a : BranchAnalysis) (r : SynthesisReport) :
    Prop where
  tidy : r.Tidy
  covered_infeasible : ∀ i ∈ r.covered, i ∉ r.infeasible
  infeasible_unknown : ∀ i ∈ r.infeasible, i ∉ r.unknown
  rejected : ∀ i ∈ r.infeasible, ∃ b ∈ a.reachableBranches, b.id = i ∧
    ∀ x ∈ a.candidates b, Rejects answer x.1

theorem judged_start (function : Json) (target : Scalar) (total : Nat) (a : BranchAnalysis) :
    Judged answer a (.start function target total) where
  tidy := tidy_start _ _ _
  covered_infeasible := nofun
  infeasible_unknown := nofun
  rejected := nofun

theorem Judged.not_mem_infeasible (h : Judged answer a r) {p : FlowPath} (hp : p ∈ a.paths)
    (hsat : (answer p.condition).status = .sat) : ∀ i ∈ p.branches, i ∉ r.infeasible := by
  intro i hi hinfeasible
  obtain ⟨b, -, rfl, hrejected⟩ := h.rejected i hinfeasible
  exact (hrejected (p.condition, some p) (mem_candidates_iff.mpr (.inl ⟨p, hp, hi, rfl⟩))).1 hsat

theorem Judged.record (h : Judged answer a r) (hb : r.next? a.reachableBranches = some b)
    (hattempt : Attempt.Shows answer a b attempt) :
    Judged answer a (r.record a.reachableBranches b attempt) := by
  have hopen : r.isSettled b.id ≠ true := by simpa using find?_some hb
  have hnew : b.id ∉ r.covered ∧ b.id ∉ r.infeasible ∧ b.id ∉ r.unknown := by
    rw [Ne, h.tidy.isSettled_iff] at hopen
    simpa only [not_or] using hopen
  cases hstatus : attempt.result.status with
  | sat =>
    obtain ⟨ids, cs, us, ss, hids, hc, heq⟩ := exists_record_of_sat r a.reachableBranches b hstatus
    have htaken : ∀ i ∈ taken b attempt, i ∉ r.infeasible := by
      unfold taken
      cases hp : attempt.path with
      | none => exact fun i hi => mem_singleton.mp hi ▸ hnew.2.1
      | some p =>
        obtain ⟨-, hmem, hsat⟩ := hattempt.path hstatus p hp
        exact h.not_mem_infeasible hmem hsat
    rw [heq]
    obtain ⟨htidy, hunknown⟩ := hc.tidy h.tidy
    refine ⟨{ htidy with }, fun i hi => ?_, fun i hi hu => ?_, h.rejected⟩
    · exact ((hc.mem_covered i).mp hi).elim (h.covered_infeasible i) fun hi =>
        htaken i ((hids i).mp hi).1
    · exact h.infeasible_unknown i hi ((hunknown i).mp hu).1
  | unsat =>
    rw [SynthesisReport.record, hstatus]
    refine ⟨(enters_infeasible h.tidy hopen attempt.calls).tidy, fun i hi hinf => ?_,
      fun i hi hu => ?_, fun i hi => ?_⟩
    · rcases mem_append.mp hinf with hinf | hinf
      · exact h.covered_infeasible i hi hinf
      · exact hnew.1 (mem_singleton.mp hinf ▸ hi)
    · rcases mem_append.mp hi with hi | hi
      · exact h.infeasible_unknown i hi hu
      · exact hnew.2.2 (mem_singleton.mp hi ▸ hu)
    · rcases mem_append.mp hi with hi | hi
      · exact h.rejected i hi
      · exact ⟨b, mem_of_find?_eq_some hb, (mem_singleton.mp hi).symm,
          hattempt.rejected hstatus⟩
  | unknown =>
    rw [SynthesisReport.record, hstatus]
    refine ⟨(enters_unknown h.tidy hopen attempt.calls).tidy, h.covered_infeasible,
      fun i hi hu => ?_, h.rejected⟩
    rcases mem_append.mp hu with hu | hu
    · exact h.infeasible_unknown i hi hu
    · exact hnew.2.1 (mem_singleton.mp hu ▸ hi)

theorem exists_run_judged (h : solver.AnswersBy answer)
    (ha : ofFunction f body limit = .ok a) (settings : Settings) {target : Scalar}
    (htarget : ((Scalar.int 0).lt target && target.le (.int 1))) (s : σ) :
    ∃ r s', solver.run a settings target s = .ok (r, s') ∧ Judged answer a r ∧
      r.total = a.reachableBranches.length ∧
      Ended solver a.reachableBranches (settings.budget r.total) r s' := by
  have hsorted := pairwise_reachableBranches ha
  obtain ⟨r, s', hloop, hr, hended⟩ := exists_loop h.answers hsorted
    (settings.budget a.reachableBranches.length) (a.reachableBranches.length + 1) s
    (accounts_start a.function target a.reachableBranches _) (Nat.lt_succ_self _)
  refine ⟨r, s', ?_, ?_, hr.total_eq, ?_⟩
  · rw [run, if_pos htarget]
    exact hloop
  · refine loop_induction ?_ ?_ ?_ hloop (judged_start a.function target _ a)
    · exact fun r hr => ⟨{ hr.tidy with }, hr.2, hr.3, hr.4⟩
    · exact fun r hr => ⟨{ hr.tidy with }, hr.2, hr.3, hr.4⟩
    · intro r b limit s attempt s' hr hnext hattempt
      exact hr.record hnext ((tried_of_solveBranch h.answers hattempt).shows h)
  · rw [hr.total_eq]
    exact hended

theorem mem_listed_iff {v : Verdict} : i ∈ r.listed v ↔ match v with
      | .covered => i ∈ r.covered
      | .infeasible => i ∈ r.infeasible
      | .unknown => i ∈ r.unknown := by
  cases v with
  | covered => exact (mergeSort_perm r.covered (· ≤ ·)).mem_iff
  | infeasible | unknown => exact Iff.rfl

theorem Judged.verdict_unique (h : Judged answer a r) {v w : Verdict}
    (hv : i ∈ r.listed v) (hw : i ∈ r.listed w) : v = w := by
  rw [mem_listed_iff] at hv hw
  cases v <;> cases w
  case covered.covered | infeasible.infeasible | unknown.unknown => rfl
  case covered.infeasible => exact absurd hw (h.covered_infeasible i hv)
  case covered.unknown => exact absurd hw (h.tidy.disjoint i hv)
  case infeasible.covered => exact absurd hv (h.covered_infeasible i hw)
  case infeasible.unknown => exact absurd hw (h.infeasible_unknown i hv)
  case unknown.covered => exact absurd hv (h.tidy.disjoint i hw)
  case unknown.infeasible => exact absurd hv (h.infeasible_unknown i hw)

/-- If a consistent solver is asked, no branch has two verdicts.  A run that has not been cancelled,
has solver calls left and has not come to its target has a verdict on every branch that can be
reached. -/
theorem run_verdicts_consistent (solver : Solver σ) {answer : String → SolveResult}
    (h : solver.AnswersBy answer) {f : FunctionDecl} {body : Tree} {limit : Option Nat}
    {a : BranchAnalysis} (ha : BranchAnalysis.ofFunction f body limit = .ok a)
    (settings : Settings) (target : Scalar)
    (htarget : ((Scalar.int 0).lt target && target.le (.int 1)) = true) (s : σ) :
    ∃ r s', solver.run a settings target s = .ok (r, s') ∧
      (∀ v w i, i ∈ r.listed v → i ∈ r.listed w → v = w) ∧
      (r.cancelled = false → r.budgetExhausted = false → r.targetReached = false →
        ∀ b ∈ a.reachableBranches, ∃! v, b.id ∈ r.listed v) := by
  obtain ⟨r, s', hrun, hjudged, htotal, hended⟩ := exists_run_judged h ha settings htarget s
  refine ⟨r, s', hrun, fun v w i => hjudged.verdict_unique, ?_⟩
  intro hcancelled hexhausted hreached b hb
  have hsettled : r.isSettled b.id := by
    cases hended with
    | cancelled _ h => cases hcancelled.symm.trans h
    | reached h =>
      rcases h with h | h
      · rw [htotal, length_eq_zero_iff] at h
        exact absurd (h ▸ hb) not_mem_nil
      · cases hreached.symm.trans h
    | settled h => exact h b hb
    | exhausted _ _ _ h => cases hexhausted.symm.trans h
  obtain ⟨v, hv⟩ : ∃ v, b.id ∈ r.listed v := by
    rcases hjudged.tidy.isSettled_iff.mp hsettled with h | h | h
    · exact ⟨.covered, mem_listed_iff.mpr h⟩
    · exact ⟨.infeasible, h⟩
    · exact ⟨.unknown, h⟩
  exact ⟨v, hv, fun w hw => hjudged.verdict_unique hw hv⟩

/-! ## Runs on fixed answers -/

/-- The solver that answers as a function says and is never cancelled. -/
def ofAnswers (answer : String → SolveResult) : Solver Unit where
  ask condition := fun s => .ok (answer condition, s)
  isCancelled _ := false

theorem answersBy_ofAnswers (answer : String → SolveResult) : (ofAnswers answer).AnswersBy answer :=
  fun _ s => ⟨s, rfl⟩

/-- Whether a body is analysed, with some limit on its paths, and a run on fixed answers over all of
its branches ends with a report that passes a test. -/
def reportPasses (answer : String → SolveResult) (body : Tree) (limit : Option Nat)
    (test : BranchAnalysis → SynthesisReport → Bool) : Bool :=
  match ofFunction (.named .null) body limit with
  | .ok a =>
    match (ofAnswers answer).run a .standard (.int 1) () with
    | .ok (r, _) => test a r
    | .error _ => false
  | .error _ => false

theorem exists_of_reportPasses {answer : String → SolveResult}
    {test : BranchAnalysis → SynthesisReport → Bool}
    (h : reportPasses answer body limit test) :
    ∃ a r, ofFunction (.named .null) body limit = .ok a ∧
      (ofAnswers answer).run a .standard (.int 1) () = .ok (r, ()) ∧ test a r := by
  unfold reportPasses at h
  split at h
  · rename_i a ha
    split at h
    · rename_i r s hrun
      exact ⟨a, r, ha, hrun, h⟩
    · cases h
  · cases h

def ifThen (condition : String) : Tree :=
  .node ⟨.ifElse, .null, .null, .null, .str condition, .null, .null, .null, .null⟩
    [.node ⟨.expression, .null, .null, .null, .null, .null, .null, .null, .null⟩ []]

def twoSigns : Tree :=
  .node ⟨.compound, .null, .null, .null, .null, .null, .null, .null, .null⟩
    [ifThen "x > 0", ifThen "x < 0"]

/-- The answers of a solver that satisfies one path and gives up where the first test fails. -/
def cautious (condition : String) : SolveResult :=
  if condition = "(x > 0) && (!(x < 0))" then .sat []
  else if condition = "(!(x > 0)) && (!(x < 0))" ∨ condition = "!(x > 0)" then .unknown "too hard"
  else .unsat

theorem run_verdicts_consistent_signs :
    ∃ a r s', BranchAnalysis.ofFunction (.named .null) twoSigns (some 9) = .ok a ∧
      (ofAnswers cautious).run a .standard (.int 1) () = .ok (r, s') ∧
      (r.covered = [0, 3] ∧ r.infeasible = [2] ∧ r.unknown = [1]) ∧
      ∀ b ∈ a.reachableBranches, ∃! v, b.id ∈ r.listed v := by
  have htest : reportPasses cautious twoSigns (some 9) (fun _ r =>
      decide (r.covered = [0, 3] ∧ r.infeasible = [2] ∧ r.unknown = [1]) &&
        decide (r.cancelled = false ∧ r.budgetExhausted = false ∧
          r.targetReached = false)) := by decide +kernel
  obtain ⟨a, r, ha, hrun, hr⟩ := exists_of_reportPasses htest
  obtain ⟨hlists, hcancelled, hexhausted, hreached⟩ :
      (r.covered = [0, 3] ∧ r.infeasible = [2] ∧ r.unknown = [1]) ∧
        r.cancelled = false ∧ r.budgetExhausted = false ∧ r.targetReached = false := by
    simpa only [Bool.and_eq_true, decide_eq_true_eq] using hr
  obtain ⟨r', s', hrun', -, hall⟩ := run_verdicts_consistent (ofAnswers cautious)
    (answersBy_ofAnswers cautious) ha .standard (.int 1) (by decide) ()
  obtain ⟨rfl, -⟩ := Prod.mk.inj (Except.ok.inj (hrun.symm.trans hrun'))
  exact ⟨a, r, s', ha, hrun', hlists, hall hcancelled hexhausted hreached⟩

/-! ## Infeasible branches and the limit on paths -/

theorem mem_paths_of_ofFunction (ha : ofFunction f body limit = .ok a) (p : FlowPath) :
    p ∈ a.paths ↔ p ∈ a.graph.paths a.branches none ∧ ∀ n, limit = some n → p.id < n := by
  obtain ⟨d, hd, h⟩ := bind_eq_ok ha
  obtain ⟨complexity, -, h⟩ := bind_eq_ok h
  obtain ⟨directions, -, h⟩ := bind_eq_ok h
  cases h
  have hcomplete : d.Complete := Draft.ofBody_eq_ok hd ▸ Draft.complete_drawn f.name body
  exact hcomplete.mem_paths_iff limit p

/-- A consistent solver that gives its reasons refutes every path through a branch that a run calls
infeasible, as far as the paths are listed: of all paths, those with a number below the limit.  If
none of the listed paths takes the branch, it refutes the condition of the branch itself. -/
theorem infeasible_refutes_listed_paths (solver : Solver σ) {answer : String → SolveResult}
    (h : solver.AnswersBy answer) (hreasons : GivesReasons answer) {f : FunctionDecl} {body : Tree}
    {limit : Option Nat} {a : BranchAnalysis} (ha : BranchAnalysis.ofFunction f body limit = .ok a)
    (settings : Settings) (target : Scalar)
    (htarget : ((Scalar.int 0).lt target && target.le (.int 1)) = true) (s : σ) :
    ∃ r s', solver.run a settings target s = .ok (r, s') ∧ ∀ i ∈ r.infeasible,
      (∀ p ∈ a.graph.paths a.branches none, i ∈ p.branches → (∀ n, limit = some n → p.id < n) →
        (answer p.condition).status = .unsat) ∧
      ((∀ p ∈ a.paths, i ∉ p.branches) →
        ∃ b ∈ a.reachableBranches, b.id = i ∧ (answer b.condition).status = .unsat) := by
  obtain ⟨r, s', hrun, hjudged, -⟩ := exists_run_judged h ha settings htarget s
  refine ⟨r, s', hrun, fun i hi => ?_⟩
  obtain ⟨b, hb, rfl, hrejected⟩ := hjudged.rejected i hi
  refine ⟨fun p hp htakes hlimit => ?_, fun hnone => ⟨b, hb, rfl, ?_⟩⟩
  · have hlisted := (mem_paths_of_ofFunction ha p).mpr ⟨hp, hlimit⟩
    exact (hrejected _ (mem_candidates_iff.mpr (.inl ⟨p, hlisted, htakes, rfl⟩))).2 hreasons
  · exact (hrejected _ (mem_candidates_iff.mpr (.inr ⟨hnone, rfl⟩))).2 hreasons

def bySign (condition : String) : SolveResult :=
  if condition = "(x > 0) && (x < 0)" then .unsat else .sat []

theorem givesReasons_bySign : GivesReasons bySign := by
  intro condition hstatus
  unfold bySign at hstatus
  split at hstatus <;> cases hstatus

/-- The run over the first path of `twoSigns` calls its first branch infeasible, though another path
takes that branch and is satisfied. -/
theorem reportPasses_twoSigns : reportPasses bySign twoSigns (some 1) (fun a r =>
      decide (0 ∈ r.infeasible) && (a.graph.paths a.branches none).any fun p =>
        decide (0 ∈ p.branches ∧ (bySign p.condition).status = .sat)) := by
  decide +kernel

theorem infeasible_refutes_listed_paths_signs :
    ∃ a r s', BranchAnalysis.ofFunction (.named .null) twoSigns (some 1) = .ok a ∧
      (ofAnswers bySign).run a .standard (.int 1) () = .ok (r, s') ∧ 0 ∈ r.infeasible ∧
      ∀ p ∈ a.graph.paths a.branches none, 0 ∈ p.branches → p.id < 1 →
        (bySign p.condition).status = .unsat := by
  obtain ⟨a, r, ha, hrun, hr⟩ := exists_of_reportPasses reportPasses_twoSigns
  obtain ⟨r', s', hrun', hrefutes⟩ := infeasible_refutes_listed_paths (ofAnswers bySign)
    (answersBy_ofAnswers bySign) givesReasons_bySign ha .standard (.int 1) (by decide) ()
  obtain ⟨rfl, -⟩ := Prod.mk.inj (Except.ok.inj (hrun.symm.trans hrun'))
  have hinfeasible : 0 ∈ r.infeasible := of_decide_eq_true (Bool.and_eq_true_iff.mp hr).1
  refine ⟨a, r, s', ha, hrun', hinfeasible, fun p hp htakes hid => ?_⟩
  exact (hrefutes 0 hinfeasible).1 p hp htakes fun n hn => Option.some.inj hn ▸ hid

/-- A branch that is called infeasible may lie on a path that the solver satisfies, if the limit
leaves the path out. -/
theorem infeasible_satisfied_beyond_limit :
    ∃ a r s' p, BranchAnalysis.ofFunction (.named .null) twoSigns (some 1) = .ok a ∧
      (ofAnswers bySign).run a .standard (.int 1) () = .ok (r, s') ∧ 0 ∈ r.infeasible ∧
      p ∈ a.graph.paths a.branches none ∧ 0 ∈ p.branches ∧
      (bySign p.condition).status = .sat := by
  obtain ⟨a, r, ha, hrun, hr⟩ := exists_of_reportPasses reportPasses_twoSigns
  obtain ⟨hinfeasible, hany⟩ := Bool.and_eq_true_iff.mp hr
  obtain ⟨p, hp, hsat⟩ := any_eq_true.mp hany
  obtain ⟨htakes, hsat⟩ := of_decide_eq_true hsat
  exact ⟨a, r, (), p, ha, hrun, of_decide_eq_true hinfeasible, hp, htakes, hsat⟩

end Solver

end Branchwise
