import Branchwise.Alias.Table
import Branchwise.Logic.Lowering

/-!
# Queries

A query asks for values of variables that lie in their domains and satisfy some guards.  It is
stated as a list of conditions over the declared variables and those that the domains and guards
name.
-/

namespace Branchwise

/-! ## Literals -/

namespace Literal

def digits (n : Int) : Except Error String :=
  if Number.isWritable n then .ok (toString n)
  else .error (.longInteger (some (Number.decimalLength n.natAbs)))

/-- The literal of a value of a sort.  A real that is no integer is written as the nearest binary
number. -/
def write (s : TermSort) (q : Rat) : Except Error String :=
  match s with
  | .bool => .ok (if q = 0 then "false" else "true")
  | .int => digits q.num
  | .real => do
    let whole ← digits q.num
    let _ ← digits q.den
    if q.den = 1 then return whole ++ ".0"
    else
      match Binary64.ofRat q (q < 0) with
      | .infinite _ => .error .overflow
      | x => .ok x.text

def parse (text : String) : Except Error Scalar :=
  let t := Text.trim text
  if t = "true" then .ok (.bool true)
  else if t = "false" then .ok (.bool false)
  else
    match Number.int? t.toList with
    | some n => .ok (.int n)
    | none =>
      match Number.real? t.toList with
      | some x => .ok (.real x)
      | none => .error (.notReal t)

/-- The number that a literal stands for; a truth value is one or zero. -/
def value (text : String) : Except Error Scalar := do
  match ← parse text with
  | .bool b => return .int (if b then 1 else 0)
  | v => return v

end Literal

/-! ## Queries -/

/-- What the terms of a session are built with: the aliases that give variables their sorts, and the
named constants. -/
structure Engine where
  aliases : Option AliasTable
  symbols : Table String Json
deriving Repr, Inhabited

abbrev VariableTypes := Table Json Json

structure QueryVariable where
  variableName : Json
  unknown : String
  sort : TermSort
deriving Repr, Inhabited

structure Query where
  /-- All variables in order: the declared ones, then those of the domains, then those of the
  guards. -/
  vars : List QueryVariable
  formula : List (Term .bool)

namespace Engine

/-- The sort of the values of a type.  A type whose aliases form a cycle counts as an integer
type. -/
def sortOf (e : Engine) (type : Json) : Except Error TermSort := do
  let spelling ← type.spelling
  match e.aliases with
  | none => return Spelling.sort spelling
  | some t =>
    match t.base spelling with
    | .error _ => return .int
    | .ok (some b) => return b.sort
    | .ok none => return Spelling.sort spelling

def variablesOf (e : Engine) (g : Expr) : List String :=
  g.freeNames.filter fun x => !e.symbols.contains x

def sorts (e : Engine) (types : VariableTypes) : Except Error (Table Json TermSort) := do
  return .ofList (← types.entries.mapM fun (x, type) => return (x, ← e.sortOf type))

/-- What names stand for; a variable without a declared sort is an integer. -/
def scope (e : Engine) (sorts : Table Json TermSort) : NameScope where
  sort x := (sorts.get? x).getD .int
  symbols := e.symbols

/-- The variables of a domain: its own, and those of its guard unless the domain is empty. -/
def domainVariables (e : Engine) (d : Domain) : Except Error (List Json) := do
  if d.guard.isVoid || (← d.isEmpty) then return [d.variableName]
  return d.variableName :: (e.variablesOf (← Guard.ofJson d.guard)).map .str

def queryVariable (scope : NameScope) (x : Json) : Except Error QueryVariable := do
  let unknown ← Encoding.unknownName x
  return ⟨x, unknown, scope.sort x⟩

def query (e : Engine) (domains : List Domain) (types : VariableTypes) (guards : List Expr) :
    Except Error Query := do
  let scope := e.scope (← e.sorts types)
  let declared ← types.keys.mapM (queryVariable scope)
  let inDomains ← domains.mapM (Encoding.domain scope)
  let hold ← guards.mapM (Encoding.guard scope)
  let conditions := inDomains ++ hold
  let ofDomains ← domains.mapM e.domainVariables
  let names := ofDomains.flatten ++ guards.flatMap fun g => (e.variablesOf g).map Json.str
  let others ← (names.eraseDups.filter fun x => !types.contains x).mapM (queryVariable scope)
  return {
    vars := declared ++ others
    formula := conditions.map Condition.term ++ conditions.flatMap Condition.sides }

end Engine

/-- The unknowns of a query with their sorts.  Variables with unknowns of one name and one sort have
the same value. -/
def Query.unknowns (q : Query) : List (String × TermSort) :=
  (q.vars.map fun v => (v.unknown, v.sort)).eraseDups

end Branchwise
