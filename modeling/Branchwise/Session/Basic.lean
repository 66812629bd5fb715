import Branchwise.Calls.Graph
import Branchwise.Declarations.Domains
import Branchwise.Declarations.Issue
import Branchwise.Declarations.Storage
import Branchwise.Solver.Search
import Branchwise.Synthesis.Run

/-!
# Sessions

A session answers questions about one unit.  It starts by registering the aliases of the unit and by
evaluating its constants; what it finds out about a function is kept, and so is the call graph.
-/

namespace Branchwise

structure Session where
  document : Document
  aliases : AliasTable
  settings : Settings
  symbols : Table Json Scalar
  analyses : Table Json BranchAnalysis
  domains : Table Json (Table Json Domain)
  calls : Option CallGraph

abbrev Question := ExceptT Error (StateM Session)

namespace Session

/-- Starts a session; the aliases registered until something fails stay in the table. -/
def start (document : Document) (aliases : AliasTable) (settings : Settings) :
    Except Error Session × AliasTable :=
  let (registered, aliases) := document.declarations.registerAliases (.str "Source") aliases
  let session := do
    let _ ← registered
    let symbols ← document.declarations.constants
    let _ ← Domain.floor settings.solverTimeout
    return ⟨document, aliases, settings, symbols, .empty, .empty, none⟩
  (session, aliases)

def engine (s : Session) : Engine where
  aliases := some s.aliases
  symbols := ⟨s.symbols.entries.filterMap fun
    | (.str name, v) => some (name, .ofScalar v)
    | _ => none⟩

def declarations (s : Session) : Declarations := s.document.declarations

/-! ## Functions -/

def function (s : Session) (name : Json) : Except Error FunctionDecl :=
  s.declarations.getFunction name

def body (s : Session) (name : Json) : Except Error Tree := do
  let f ← s.function name
  match s.document.bodies.get? f.name with
  | some body => return body
  | none => throw (.entityNotFound "function body" name)

def types (s : Session) (name : Json) : Except Error VariableTypes := do
  s.declarations.solverTypes s.aliases (← s.function name)

/-- The directions of the parameters of a function, which need not have a body. -/
def directions (s : Session) (name : Json) : Except Error (Table Json Direction) := do
  let f ← s.function name
  Direction.ofFunction f (s.document.bodies.get? f.name)

def analysis (name : Json) : Question BranchAnalysis := do
  let s ← get
  match s.analyses.get? name with
  | some a => return a
  | none =>
    let f ← s.function name
    let body ← s.body name
    let a ← BranchAnalysis.ofFunction f body s.settings.pathLimit
    set { s with analyses := s.analyses.put name a }
    return a

def variableDomains (name : Json) : Question (Table Json Domain) := do
  let s ← get
  match s.domains.get? name with
  | some t => return t
  | none =>
    let f ← s.function name
    let body := if s.settings.foldsLoopGuards then s.document.bodies.get? f.name else none
    let t ← s.declarations.domains s.aliases f body
    set { s with domains := s.domains.put name t }
    return t

/-! ## Calls -/

/-- The call graph of the unit; the functions of the unit are marked by it when it is built. -/
def callGraph : Question CallGraph := do
  let s ← get
  match s.calls with
  | some g => return g
  | none =>
    let g ← CallGraph.build s.declarations s.document.bodies true
    set { s with
      document.declarations := g.recordRecursion s.declarations
      calls := some g }
    return g

def callGraphFrom (root limit : Json) : Question CallGraph := do
  let _ ← (← get).function root
  (← callGraph).subgraph root limit

def callChains (root limit enough : Json) : Question (List (List Json)) := do
  let _ ← (← get).function root
  (← callGraph).chains root limit enough

/-! ## Inputs -/

def solve (name guard : Json) : Question SolveResult := do
  let types ← (← get).types name
  let domains ← variableDomains name
  (← get).engine.solve Search.decide domains.values types [guard]

def solveOutputs (name : Json) (outputs : Table Json Json) : Question SolveResult := do
  let domains ← variableDomains name
  let types ← (← get).types name
  (← get).engine.solveOutputs Search.decide domains.values types outputs

/-- Runs over the branches of a function with a solver that is made for its variables.  A target of
null is that of the settings. -/
def synthesizeWith {σ : Type} (solver : List Domain → VariableTypes → Solver σ) (start : σ)
    (name target : Json) : Question (SynthesisReport × σ) := do
  let a ← analysis name
  let domains ← variableDomains name
  let types ← (← get).types name
  let settings := (← get).settings
  let target := (← target.asBound).getD settings.targetCoverage
  (solver domains.values types).run a settings target start

def synthesize (name target : Json) (cancelled : Bool) : Question SynthesisReport := do
  let engine := (← get).engine
  let solver := fun ds ts => Solver.ofEngine engine Search.decide ds ts cancelled
  return (← synthesizeWith solver () name target).1

/-- Inputs for every function with a body within a number of calls from a root. -/
def synthesizeCalls (root limit target : Json) (cancelled : Bool) :
    Question (List (Json × SynthesisReport)) := do
  let g ← callGraphFrom root limit
  let s ← get
  let names := g.nodes.values.filter fun n => !n.isExternal && s.document.bodies.contains n.name
  if cancelled then return []
  else names.mapM fun n => do
    return (n.name, ← synthesize n.name target cancelled)

/-! ## The whole unit -/

def typeDependencies (s : Session) : Except Error DepGraph :=
  DepGraph.ofTypes s.declarations (some s.aliases)

def includeDependencies (s : Session) : DepGraph := .ofIncludes s.declarations

def validate : Question (List Issue) := do
  let s ← get
  let issues ← s.declarations.issues (some s.aliases)
  let (found, d) := s.declarations.runLaying (s.declarations.layoutIssues (some s.aliases))
  set { s with document.declarations := d }
  return issues ++ (← found)

end Session

end Branchwise
