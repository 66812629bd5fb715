import Branchwise.Engine.Solve
import Branchwise.Synthesis.Settings

/-!
# Synthesis runs

A run takes the lowest branch that is neither covered nor settled and asks a solver for inputs that
take it: for each path through the branch in turn, or for its condition alone if no path is known.
The solver is a parameter and may keep a state, so that nothing here depends on what it answers.
-/

namespace Branchwise

structure Solver (σ : Type) where
  ask : String → StateT σ (Except Error) SolveResult
  isCancelled : σ → Bool

structure Attempt where
  result : SolveResult
  path : Option FlowPath
  calls : Nat
deriving Repr, Inhabited

inductive Sweep where
  | ended (a : Attempt)
  /-- No condition was satisfied; the reason is that of the last one left unknown. -/
  | unsolved (calls : Nat) (reason : String)
deriving Repr, Inhabited

namespace Attempt

def outOfCalls (calls : Nat) : Attempt := ⟨.unknown "attempt budget exhausted", none, calls⟩

def usedUp (limit : Option Nat) (calls : Nat) : Bool := limit.any (· ≤ calls)

end Attempt

namespace BranchAnalysis

def candidates (a : BranchAnalysis) (b : Branch) : List (String × Option FlowPath) :=
  match a.pathsThrough (.nat b.id) with
  | [] => [(b.condition, none)]
  | ps => ps.map fun p => (p.condition, some p)

end BranchAnalysis

namespace Solver

variable {σ : Type}

def sweep (solver : Solver σ) (limit : Option Nat) :
    List (String × Option FlowPath) → Nat → String → StateT σ (Except Error) Sweep
  | [], calls, reason => return .unsolved calls reason
  | (condition, path) :: rest, calls, reason =>
    if Attempt.usedUp limit calls then return .ended (.outOfCalls calls)
    else do
      let result ← solver.ask condition
      match result.status with
      | .sat => return .ended ⟨result, path, calls + 1⟩
      | .unsat => solver.sweep limit rest (calls + 1) reason
      | .unknown => solver.sweep limit rest (calls + 1) result.reason

/-- The verdict on a branch none of whose conditions was satisfied.  If one was left unknown, the
condition of the branch is tried on its own, as the fault may lie elsewhere on the paths. -/
def settle (solver : Solver σ) (limit : Option Nat) (b : Branch) (hasPath : Bool) (calls : Nat)
    (reason : String) : StateT σ (Except Error) Attempt :=
  if reason.isEmpty then return ⟨.unsat, none, calls⟩
  else if hasPath && !Attempt.usedUp limit calls then do
    let result ← solver.ask b.condition
    if result.status = .unsat then return ⟨.unknown reason, none, calls + 1⟩
    else return ⟨result, none, calls + 1⟩
  else return ⟨.unknown reason, none, calls⟩

def solveBranch (solver : Solver σ) (a : BranchAnalysis) (b : Branch) (limit : Option Nat) :
    StateT σ (Except Error) Attempt := do
  match ← solver.sweep limit (a.candidates b) 0 "" with
  | .ended attempt => return attempt
  | .unsolved calls reason =>
    solver.settle limit b (!(a.pathsThrough (.nat b.id)).isEmpty) calls reason

end Solver

namespace SynthesisReport

def record (r : SynthesisReport) (reachable : List Branch) (b : Branch) (attempt : Attempt) :
    SynthesisReport :=
  let r := { r with
    solverCalls := r.solverCalls + attempt.calls
    attempted := r.attempted ++ [b.id] }
  match attempt.result.status with
  | .sat =>
    let taken := (attempt.path.map FlowPath.branches).getD [b.id]
    let r := (taken.filter fun id => reachable.any fun b => b.id = id).foldl cover r
    { r with cases := r.cases ++ [{
        function := r.function
        branch := b.id
        values := attempt.result.assignment.getD []
        coveredCount := r.covered.length
        totalCount := r.total
        path := attempt.path.map FlowPath.id
        covers := taken }] }
  | .unsat => { r with settled := r.settled ++ [b.id], infeasible := r.infeasible ++ [b.id] }
  | .unknown => { r with settled := r.settled ++ [b.id], unknown := r.unknown ++ [b.id] }

def next? (r : SynthesisReport) (reachable : List Branch) : Option Branch :=
  reachable.find? fun b => !r.isSettled b.id

end SynthesisReport

namespace Solver

variable {σ : Type}

def loop (solver : Solver σ) (a : BranchAnalysis) (budget : Option Nat) :
    Nat → SynthesisReport → StateT σ (Except Error) SynthesisReport
  | 0, r => return r
  | fuel + 1, r => do
    if solver.isCancelled (← get) then return { r with cancelled := true }
    else if r.total = 0 || r.targetReached then return r
    else
      match r.next? a.reachableBranches with
      | none => return r
      | some b =>
        if Attempt.usedUp budget r.solverCalls then return { r with budgetExhausted := true }
        else do
          let attempt ← solver.solveBranch a b (budget.map (· - r.solverCalls))
          solver.loop a budget fuel (r.record a.reachableBranches b attempt)

/-- Runs over the branches of a function until a share of them is covered, a number above zero and
not above one.  An attempt settles its branch, so that there is at most one for each. -/
def run (solver : Solver σ) (a : BranchAnalysis) (settings : Settings) (target : Scalar) :
    StateT σ (Except Error) SynthesisReport :=
  if (Scalar.int 0).lt target && target.le (.int 1) then
    let total := a.reachableBranches.length
    solver.loop a (settings.budget total) (total + 1) (.start a.function target total)
  else throw (.coverage target.text)

def ofEngine (e : Engine) (decide : Decider) (domains : List Domain) (types : VariableTypes)
    (cancelled : Bool) : Solver Unit where
  ask condition := fun s => (e.solve decide domains types [.str condition]).map (·, s)
  isCancelled _ := cancelled

def statusOf (word : Json) : Except Error SolveStatus :=
  match [SolveStatus.sat, .unsat, .unknown].find? fun s => word == .str s.name with
  | some s => .ok s
  | none => .error (.unknownWord word "SolveStatus")

/-- The solver that answers from a list of statuses and then keeps to the last of them.  Its state
lists the conditions it was asked.  It is cancelled when it was asked at all and at least as often
as a bound says, if one is given. -/
def scripted (names script : List Json) (cancelAfter : Option Scalar) : Solver (List String) where
  ask condition := do
    let asked ← get
    set (asked ++ [condition])
    match (script[asked.length]?).or script.getLast? with
    | some word =>
      match ← statusOf word with
      | .sat => return .sat (names.map (·, "0"))
      | s => return ⟨s, none, "scripted " ++ s.name⟩
    | none => throw .exhausted
  isCancelled asked := !asked.isEmpty && cancelAfter.any (·.le (.int asked.length))

end Solver

end Branchwise
