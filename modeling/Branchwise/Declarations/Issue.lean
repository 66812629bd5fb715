import Branchwise.Depends.Types
import Branchwise.Declarations.Layout.Basic

/-!
# Issues of a unit

Findings on the declarations of a unit: repeated names, unknown types and functions, cycles of
aliases, aggregates that contain themselves, and enumerators without a value.
-/

namespace Branchwise

inductive IssueKind where
  | duplicateName
  | unresolvedType
  | unresolvedReference
  | unknownCallee
  | orphanedDependency
  | selfContainment
  | typedefCycle
  | enumValue
  | layout
deriving DecidableEq, Repr, Inhabited

def IssueKind.name : IssueKind → String
  | duplicateName => "duplicate-name"
  | unresolvedType => "unresolved-type"
  | unresolvedReference => "unresolved-reference"
  | unknownCallee => "unknown-callee"
  | orphanedDependency => "orphaned-dependency"
  | selfContainment => "self-containment"
  | typedefCycle => "typedef-cycle"
  | enumValue => "enum-value"
  | layout => "layout"

structure Issue where
  kind : IssueKind
  isError : Bool
  message : String
  entity : Json
  file : Json
  line : Json
deriving Repr, Inhabited

namespace Issue

def severity (i : Issue) : String := if i.isError then "error" else "warning"

def text (i : Issue) : String :=
  let place := if i.file.isVoid then ""
    else i.file.plain ++ ":" ++ (i.line.orElse (.int 0)).plain ++ ": "
  place ++ i.severity ++ ": " ++ i.message ++ " [" ++ i.kind.name ++ "]"

def about (kind : IssueKind) (isError : Bool) (message : String) (e : Identity) : Issue :=
  ⟨kind, isError, message, e.name, e.file, e.line⟩

def error (kind : IssueKind) (message : String) (e : Identity) : Issue := about kind true message e

def warning (kind : IssueKind) (message : String) (e : Identity) : Issue :=
  about kind false message e

end Issue

namespace Declarations

def groupBy {κ α : Type} [BEq κ] (key : α → κ) (xs : List α) : List (κ × List α) :=
  (xs.foldl (fun (t : Table κ (List α)) x =>
    t.put (key x) (((t.get? (key x)).getD []) ++ [x])) .empty).entries

def sortTexts (xs : List String) : List String := xs.mergeSort fun a b => !(b < a)

def each {α : Type} (xs : List α) (check : α → Except Error (List Issue)) :
    Except Error (List Issue) :=
  return (← xs.mapM check).flatten

/-! ## Repeated names -/

def repeated (message : String → Nat → String) (es : List Identity) : List Issue :=
  (groupBy (fun (e : Identity) => (e.file, e.name)) es).filterMap fun ((_, name), found) =>
    found[1]?.map fun second => .error .duplicateName (message name.display found.length) second

def repeatedDefinitions (d : Declarations) : List Issue :=
  let functions := d.definedFunctions.map fun f => (Entity.function f).identity
  let others := (d.variableDecls.filter fun v => v.owner.isNull && v.isExtern.isVoid).map fun v =>
    (Entity.variable v).identity
  repeated (fun name n => name ++ s!" defined {n} times at file scope") (functions ++ others)

def repeatedAliases (d : Declarations) : Except Error (List Issue) := do
  let spelled ← d.typedefs.mapM fun a => do return (a, Spelling.normalize (← a.type.spelling))
  return (groupBy (fun (a : AliasDecl × String) => (a.1.file, a.1.name)) spelled).filterMap
    fun ((_, name), found) =>
      let types := (found.map Prod.snd).eraseDups
      if types.length ≤ 1 then none
      else
        (d.typedefs.find? fun a => a.name == name).map fun first =>
          .error .duplicateName ("typedef " ++ name.display
            ++ " redefined with different types: " ++ Text.join ", " (sortTexts types))
            (Entity.typedef first).identity

def repeatedTags (d : Declarations) : List Issue :=
  let tags := d.aggregates.map AggregateDecl.identity
    ++ d.enums.map fun e => (Entity.enum e).identity
  repeated (fun name n => "tag " ++ name ++ s!" defined {n} times") tags

def repeatedParameters (f : FunctionDecl) : List Json → List Parameter → Except Error (List Issue)
  | _, [] => .ok []
  | seen, p :: ps => do
    let name ← p.name.asKey
    let rest ← repeatedParameters f (name :: seen) ps
    return (if seen.contains name then
      [.error .duplicateName (f.name.plain ++ ": duplicate parameter " ++ name.display)
        (Entity.function f).identity]
    else []) ++ rest

/-- Local variables of a function whose name is taken by an earlier one or by a parameter. -/
def repeatedLocals (f : FunctionDecl) : List Json → List VariableDecl → Except Error (List Issue)
  | _, [] => .ok []
  | seen, v :: vs => do
    let name ← v.name.asKey
    let rest ← repeatedLocals f (name :: seen) vs
    let finding (what : String) : List Issue :=
      [.warning .duplicateName (f.name.plain ++ ": local " ++ name.display ++ what)
        (Entity.variable v).identity]
    return (if seen.contains name then finding " declared more than once"
      else if f.parameters.any fun p => p.name == name then finding " shadows a parameter"
      else []) ++ rest

def repeatedMembers (a : AggregateDecl) : Except Error (List Issue) := do
  let names := (a.members.map MemberDecl.name).filter fun n => !n.isVoid
  let twice ← (names.filter fun n => 1 < names.count n).eraseDups.mapM Json.asKey
  return (← Json.sorted twice).map fun n =>
    .error .duplicateName (a.kind.name ++ " " ++ a.name.plain ++ ": duplicate member " ++ n.display)
      a.identity

def duplicates (d : Declarations) : Except Error (List Issue) := do
  let aliases ← d.repeatedAliases
  let names ← each d.functions fun f => do
    let parameters ← repeatedParameters f [] f.parameters
    return parameters ++ (← repeatedLocals f [] f.locals)
  return d.repeatedDefinitions ++ aliases ++ d.repeatedTags ++ names
    ++ (← each d.aggregates repeatedMembers)

/-! ## Unknown types -/

/-- The finding on the type of something, which is described by a text. -/
def checkType (d : Declarations) (aliases : Option AliasTable) (type : Json) (what : String)
    (owner : Identity) : Except Error (List Issue) := do
  let spelling ← type.spelling
  let text := Spelling.normalize spelling
  if text.isEmpty || text = "void" then return []
  match d.resolve aliases spelling with
  | .error (.aliasCycle chain) =>
    return [.error .typedefCycle (what ++ ": " ++ (Error.aliasCycle chain).message) owner]
  | .error e => throw e
  | .ok r =>
    return if r.isResolved then []
      else [.warning .unresolvedType (what ++ ": unknown type " ++ type.display) owner]

def sameMembers (xs ys : List String) : Bool := xs.all ys.contains && ys.all xs.contains

def checkAlias (d : Declarations) (aliases : Option AliasTable)
    (acc : List (List String) × List Issue) (a : AliasDecl) :
    Except Error (List (List String) × List Issue) := do
  if ← a.isFunctionPointer then return acc
  match d.resolve aliases (← a.name.spelling) with
  | .error (.aliasCycle chain) =>
    if acc.1.any (sameMembers chain) then return acc
    return (chain :: acc.1, acc.2 ++ [.error .typedefCycle (Error.aliasCycle chain).message
      (Entity.typedef a).identity])
  | .error e => throw e
  | .ok r =>
    if r.isResolved then return acc
    return (acc.1, acc.2 ++ [.warning .unresolvedReference ("typedef " ++ a.name.display
      ++ " refers to unknown type " ++ a.type.display) (Entity.typedef a).identity])

def checkAliases (d : Declarations) (aliases : Option AliasTable) : Except Error (List Issue) :=
  return (← d.typedefs.foldlM (d.checkAlias aliases) ([], [])).2

def checkFunction (d : Declarations) (aliases : Option AliasTable) (f : FunctionDecl) :
    Except Error (List Issue) := do
  let owner := (Entity.function f).identity
  let returned ← d.checkType aliases f.returnType (f.name.plain ++ " return type") owner
  let parameters ← each f.parameters fun p =>
    d.checkType aliases p.type (f.name.plain ++ " parameter " ++ p.name.display) owner
  let locals ← each f.locals fun v =>
    d.checkType aliases v.type (f.name.plain ++ " local " ++ v.name.display)
      (Entity.variable v).identity
  return returned ++ parameters ++ locals

def checkTypes (d : Declarations) (aliases : Option AliasTable) : Except Error (List Issue) := do
  let named ← d.checkAliases aliases
  let functions ← each d.functions (d.checkFunction aliases)
  let others ← each d.variableDecls fun v =>
    d.checkType aliases v.type ("variable " ++ v.name.display) (Entity.variable v).identity
  let members ← each d.aggregates fun a => each a.members fun m =>
    d.checkType aliases m.type
      (a.kind.name ++ " " ++ a.name.plain ++ " member " ++ m.name.display) a.identity
  return named ++ functions ++ others ++ members

/-! ## Unknown names -/

/-- Findings on names that do not pass a test, each of which has to be a key. -/
def checkNames (names : List Json) (isKnown : Json → Bool) (finding : Json → Issue) :
    Except Error (List Issue) :=
  return ((← names.mapM Json.asKey).filter fun n => !isKnown n).map finding

def checkReferences (d : Declarations) : Except Error (List Issue) := do
  let macros := d.macros.map MacroDecl.name
  let callees ← each d.definedFunctions fun f => checkNames f.calls d.hasFunction fun c =>
    .warning .unknownCallee (f.name.plain ++ " calls undeclared function " ++ c.display)
      (Entity.function f).identity
  let needed ← each d.macros fun m => checkNames m.dependencies macros.contains fun x =>
    .warning .orphanedDependency ("macro " ++ m.name.display ++ " depends on undefined "
      ++ x.display) (Entity.macroDef m).identity
  let conditions ← each d.conditionals fun c => checkNames c.dependencies macros.contains fun x =>
    .warning .orphanedDependency (Text.quote c.name ++ " depends on undefined macro "
      ++ x.display) (Entity.conditional c).identity
  return callees ++ needed ++ conditions

def checkContainment (d : Declarations) (aliases : Option AliasTable) :
    Except Error (List Issue) := do
  (← DepGraph.ofTypes d aliases).containmentCycles.mapM fun cycle => do
    let message := "aggregate contains itself by value: " ++ (← Json.joined " -> " cycle)
    match d.tagged? (cycle.headD .null) none with
    | some e => return .error .selfContainment message e.identity
    | none => return ⟨.selfContainment, true, message, .null, .null, .null⟩

def checkEnums (d : Declarations) : Except Error (List Issue) :=
  each d.enums fun e =>
    match e.resolved with
    | .ok _ => .ok []
    | .error (.model fault) =>
      .ok [.error .enumValue fault.message (Entity.enum e).identity]
    | .error err => .error err

def issues (d : Declarations) (aliases : Option AliasTable) : Except Error (List Issue) := do
  let duplicates ← d.duplicates
  let types ← d.checkTypes aliases
  let references ← d.checkReferences
  let containment ← d.checkContainment aliases
  return duplicates ++ types ++ references ++ containment ++ (← d.checkEnums)

/-- Findings on the layouts of all aggregates; an aggregate without a layout is passed over, but a
cycle of aliases is an error. -/
def layoutIssues (d : Declarations) (aliases : Option AliasTable) : Laying (List Issue) := do
  let found ← d.aggregates.mapM fun a =>
    tryCatch (do
      return (← d.layoutWarnings aliases a).map fun text =>
        Issue.warning .layout text a.identity)
      fun
        | .model _ => return []
        | e => throw e
  return found.flatten

end Declarations

end Branchwise
