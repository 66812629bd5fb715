import Branchwise.Engine.Query
import Branchwise.Solver.Model

/-!
# Solving and evaluating guards

Finds values for variables, lists sample values of a domain, and evaluates guards with all names
bound.
-/

namespace Branchwise

inductive SolveStatus where
  | sat
  | unsat
  | unknown
deriving DecidableEq, Repr, Inhabited

def SolveStatus.name : SolveStatus → String
  | sat => "sat"
  | unsat => "unsat"
  | unknown => "unknown"

/-- The answer to a query: with values for its variables as literals, or with a reason. -/
structure SolveResult where
  status : SolveStatus
  assignment : Option (List (Json × String))
  reason : String
deriving Repr, Inhabited

namespace SolveResult

def unsat : SolveResult := ⟨.unsat, none, "unsatisfiable"⟩

def unknown (reason : String) : SolveResult := ⟨.unknown, none, reason⟩

def sat (assignment : List (Json × String)) : SolveResult := ⟨.sat, some assignment, ""⟩

end SolveResult

def assignmentText (a : List (Json × String)) : String :=
  "SolvedAssignment(" ++ Text.join ", " (a.map fun (k, v) => k.plain ++ "=" ++ v) ++ ")"

namespace Query

def literals (q : Query) (m : Model) : Except Error (List (Json × String)) :=
  q.vars.mapM fun v => do
    return (v.variableName, ← Literal.write v.sort (m.get v.sort v.unknown))

def solve (decide : Decider) (q : Query) : Except Error SolveResult :=
  match decide q.unknowns q.formula with
  | .found a => (q.literals a.model).map SolveResult.sat
  | .impossible => .ok .unsat
  | .unknown => .ok (.unknown "incomplete")

/-- How near to a value that is not exact no other value is looked for. -/
def narrowDistance : Rat := 1 / (Nat.pow 2 40 : Rat)

/-- The condition that a variable has another value than in a solution. -/
def differs {formula : List (Term .bool)} (x : String) (s : TermSort) (a : Solution formula) :
    Term .bool :=
  let related (r : Comparison) (q : Rat) : Term .bool :=
    let number : AnyTerm := if s = .real then .real (.real q) else .int (.int q.num)
    ((AnyTerm.var s x).promote number).compare r
  let value := a.model.valuation.number s x
  if a.isExact then related .ne value
  else .or (related .lt (value - narrowDistance)) (related .gt (value + narrowDistance))

/-- Up to `count` values of a variable in solutions of some conditions; each value that is found is
excluded from then on. -/
def samples (decide : Decider) (names : List (String × TermSort)) (x : String) (s : TermSort) :
    Nat → List (Term .bool) → Except Error (List String)
  | 0, _ => .ok []
  | count + 1, formula =>
    match decide names formula with
    | .found a => do
      let text ← Literal.write s (a.model.valuation.number s x)
      return text :: (← samples decide names x s count (formula ++ [differs x s a]))
    | _ => .ok []

end Query

namespace Engine

/-- An answer in which a guard that has no term makes the query unknown. -/
def orUnknown : Except Error SolveResult → Except Error SolveResult
  | .error (.guard e) => .ok (.unknown e.message)
  | r => r

/-- Values that satisfy every condition and lie in every domain.  The conditions are guard texts. -/
def solve (e : Engine) (decide : Decider) (domains : List Domain) (types : VariableTypes)
    (conditions : List Json) : Except Error SolveResult :=
  orUnknown (do
    let guards ← conditions.mapM Guard.ofJson
    (← e.query domains types guards).solve decide)

/-- The condition that pins a name to a literal or to a guard over other names. -/
def outputCondition (o : Json × Json) : Json := .str (o.1.plain ++ " == (" ++ o.2.plain ++ ")")

def solveOutputs (e : Engine) (decide : Decider) (domains : List Domain) (types : VariableTypes)
    (outputs : Table Json Json) : Except Error SolveResult :=
  let types := outputs.keys.foldl (fun (t : VariableTypes) x => t.putNew x (.str "int")) types
  e.solve decide domains types (outputs.entries.map outputCondition)

def isInhabited (e : Engine) (decide : Decider) (d : Domain) (type : Json) :
    Except Error Bool := do
  return (← e.solve decide [d] (.ofList [(d.variableName, type)]) []).status == .sat

/-- The number of natural numbers below a bound; `limit` stands for infinitely many. -/
def countBelow (limit : Nat) (bound : Scalar) : Nat :=
  match bound.value? with
  | some (.fin r) => r.ceil.toNat
  | some .posInf => limit
  | some .negInf | none => 0

/-- Up to so many different values of a variable in a domain, which may have a variable of its
own. -/
def samples (e : Engine) (decide : Decider) (limit : Nat) (x type : Json) (d : Option Domain)
    (count : Json) : Except Error (List String) :=
  match e.query d.toList (.ofList [(x, type)]) [] with
  | .error (.guard _) => .ok []
  | .error err => .error err
  | .ok q => do
    let conditions := q.formula.take d.toList.length
    let count := countBelow limit (← count.asScalar)
    Query.samples decide q.unknowns (← Encoding.unknownName x) (← e.sortOf type) count conditions

/-- The constant that a name is bound to: a text is a literal, and an integer becomes a binary
number if its type is real. -/
def bind (e : Engine) (types : Option VariableTypes) (x v : Json) : Except Error Json := do
  let v ← match v with
    | .str literal => (Literal.parse literal).map .ofScalar
    | v => pure v
  match v, types with
  | .int n, some types =>
    if (← e.sortOf ((types.get? x).getD (.str "int"))) = .real then
      match Binary64.ofRat n (n < 0) with
      | .infinite _ => .error .overflow
      | y => return .real y
    else return v
  | v, _ => return v

def literalOf (t : AnyTerm) : Except Error String :=
  match t with
  | .int t => Literal.write .int ((t.eval .zero : Int) : Rat)
  | .real t => Literal.write .real (t.eval .zero)
  | .bool t => Literal.write .bool (if t.eval .zero then 1 else 0)

def bindAll (e : Engine) (types : Option VariableTypes) (values : Table Json Json) :
    Except Error (Table String Json) :=
  values.entries.foldlM (fun (t : Table String Json) (x, raw) => do
    let v ← e.bind types x raw
    match x with
    | .str name => return t.put name v
    | _ => return t) e.symbols

def evaluate (e : Engine) (text : Json) (values : Table Json Json)
    (types : Option VariableTypes) : Except Error String := do
  let g ← Guard.ofJson text
  let missing := (e.variablesOf g).filter fun x => !values.contains (.str x)
  if !missing.isEmpty then .error (.guard ⟨text.textOrEmpty, .unboundNames missing⟩)
  let bound ← e.bindAll types values
  let lowered ← Lowering.lower ⟨fun _ => .int, bound⟩ g
  if lowered.sides.any fun s => !s.eval .zero then
    .error (.guard ⟨text.textOrEmpty, .divisionByZero⟩)
  literalOf lowered.term

end Engine

end Branchwise
