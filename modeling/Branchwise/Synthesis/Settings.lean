import Branchwise.Domain.Basic
import Branchwise.Flow.Analysis

/-!
# Settings of a synthesis run

The numbers keep the form in which they are given: a target of one stays an integer.
-/

namespace Branchwise

structure Settings where
  targetCoverage : Scalar
  solverTimeout : Scalar
  budgetFactor : Scalar
  maxPaths : Scalar
  /-- Whether the guards of loops bound the variables of a function; any value may say so. -/
  foldLoopGuards : Json
deriving Repr, Inhabited

namespace Settings

def standard : Settings :=
  ⟨.real (Binary64.ofRat (9 / 10) false), .int 5000, .int 4, .int 256, .bool true⟩

def foldsLoopGuards (s : Settings) : Bool := !s.foldLoopGuards.isVoid

def problems (s : Settings) : List String :=
  (if (Scalar.int 0).lt s.targetCoverage && s.targetCoverage.le (.int 1) then []
    else ["target_coverage must be in (0, 1]"]) ++
  (if s.solverTimeout.le (.int 0) then ["solver_timeout_ms must be positive"] else []) ++
  (if s.budgetFactor.lt (.int 1) then ["attempt_budget_factor must be at least 1"] else []) ++
  (if s.maxPaths.lt (.int 1) then ["max_paths must be at least 1"] else [])

/-- The least natural number that is not below a scalar; there is none above infinity. -/
def ceiling? (x : Scalar) : Option Nat :=
  match Domain.ceiling x with
  | .ok n => some n.toNat
  | .error _ => none

/-- How many paths are listed at most; an infinite number is no limit. -/
def pathLimit (s : Settings) : Option Nat :=
  if s.maxPaths.isNaN then some 0 else ceiling? s.maxPaths

/-- How many solver calls a run over a number of branches may use; an infinite number is no limit.
-/
def budget (s : Settings) (branches : Nat) : Option Nat :=
  let n := max branches 1
  match s.budgetFactor with
  | .real x =>
    match x.toRat? with
    | some r => ceiling? (.real (.ofRat (r * n) false))
    | none => none
  | factor => (ceiling? factor).map (· * n)

def fieldNames : List String :=
  ["target_coverage", "solver_timeout_ms", "attempt_budget_factor", "max_paths", "fold_loop_guards"]

def number (j : Json) (key : String) (default : Scalar) : Decoder Scalar :=
  match j.field? key with
  | some v => v.asScalar
  | none => .ok default

def read (j : Json) : Decoder Settings := do
  return {
    targetCoverage := ← number j "target_coverage" standard.targetCoverage
    solverTimeout := ← number j "solver_timeout_ms" standard.solverTimeout
    budgetFactor := ← number j "attempt_budget_factor" standard.budgetFactor
    maxPaths := ← number j "max_paths" standard.maxPaths
    foldLoopGuards := (j.field? "fold_loop_guards").getD standard.foldLoopGuards }

/-- Reads settings in which every field is known; their values are not looked at. -/
def readStrict : Json → Decoder Settings
  | .obj fields =>
    if fields.all fun f => fieldNames.contains f.1 then read (.obj fields) else .error .mistyped
  | _ => .error .mistyped

def isFieldName : Json → Bool
  | .str _ => true
  | _ => false

/-- Reads settings without problems; unknown fields are passed over.  A list of names is no record
of settings, and a list of anything else is no list of names. -/
def ofJson (j : Json) : Decoder Settings := do
  match j with
  | .obj _ => pure ()
  | .arr items => throw (if items.all isFieldName then .notRecord else .mistyped)
  | .str _ => throw .notRecord
  | _ => throw .mistyped
  let s ← read j
  match s.problems with
  | [] => return s
  | ps => .error (.settings ps)

end Settings

/-! ## Reports -/

structure TestCase where
  function : Json
  branch : Nat
  values : List (Json × String)
  coveredCount : Nat
  totalCount : Nat
  /-- The path that the input takes; none if only the condition of the branch was solved. -/
  path : Option Nat
  covers : List Nat
deriving Repr, Inhabited

structure SynthesisReport where
  function : Json
  target : Scalar
  total : Nat
  cases : List TestCase
  covered : List Nat
  infeasible : List Nat
  unknown : List Nat
  attempted : List Nat
  /-- The branches that are not taken up again although they may not be covered. -/
  settled : List Nat
  cancelled : Bool
  budgetExhausted : Bool
  solverCalls : Nat
deriving Repr, Inhabited

namespace SynthesisReport

def start (function : Json) (target : Scalar) (total : Nat) : SynthesisReport :=
  ⟨function, target, total, [], [], [], [], [], [], false, false, 0⟩

/-- The share of the branches that are covered; of no branches all are. -/
def coverage (r : SynthesisReport) : Binary64 :=
  .ofRat (if r.total = 0 then 1 else r.covered.length / r.total) false

def targetReached (r : SynthesisReport) : Bool := r.target.le (.real r.coverage)

def coveredSorted (r : SynthesisReport) : List Nat := r.covered.mergeSort (· ≤ ·)

/-- The branches of an analysis with what a run has found out about them. -/
def mark (r : SynthesisReport) (b : Branch) : Branch :=
  { b with
    isFeasible := b.isFeasible && !r.infeasible.contains b.id
    isCovered := b.isCovered || r.covered.contains b.id }

def isSettled (r : SynthesisReport) (id : Nat) : Bool :=
  r.covered.contains id || r.settled.contains id

def cover (r : SynthesisReport) (id : Nat) : SynthesisReport :=
  if r.covered.contains id then r
  else if r.unknown.contains id then
    { r with
      covered := r.covered ++ [id]
      unknown := r.unknown.erase id
      settled := r.settled.filter (· ≠ id) }
  else { r with covered := r.covered ++ [id] }

end SynthesisReport

end Branchwise
