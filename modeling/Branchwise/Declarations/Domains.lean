import Branchwise.Body.Tree
import Branchwise.Declarations.Resolve
import Branchwise.Engine.Query

/-!
# Domains of declared variables

The type of a variable bounds its values: an enumeration lists them, a base type gives a range,
and an alias may narrow the range.  The guards of loops bound the local variables further.
-/

namespace Branchwise

/-- The declared types of the parameters and locals of a function; a parameter hides a local. -/
def FunctionDecl.declaredTypes (f : FunctionDecl) : Except Error VariableTypes := do
  let parameters ← f.parameters.mapM fun p => do return (← p.name.asKey, p.type)
  f.locals.foldlM (fun (t : VariableTypes) v => do return t.putNew (← v.name.asKey) v.type)
    (.ofList parameters)

def FunctionDecl.properLocals (f : FunctionDecl) : VariableTypes :=
  .ofList ((f.locals.filter fun v => (f.parameter? v.name).isNone).map fun v => (v.name, v.type))

def Tree.loopGuards (body : Tree) : Except Error (List String) :=
  (body.walk.filter fun n => n.kind.isLoop).filterMapM fun n => do
    if (← n.label.condition.trimmed).isEmpty then return none
    return some n.label.condition.textOrEmpty

namespace Declarations

def resolve? (d : Declarations) (aliases : AliasTable) (type : Json) :
    Except Error (Option ResolvedType) := do
  match d.resolve (some aliases) (← type.spelling) with
  | .ok r => return some r
  | .error (.aliasCycle _) => return none
  | .error e => .error e

/-- The base type of a variable that is neither a pointer nor an array. -/
def scalarBase? (d : Declarations) (aliases : AliasTable) (type : Json) :
    Except Error (Option BaseType) := do
  match ← d.resolve? aliases type with
  | some r => return if r.isPointer || !r.dims.isEmpty then none else r.base
  | none => return none

def solverTypes (d : Declarations) (aliases : AliasTable) (f : FunctionDecl) :
    Except Error VariableTypes := do
  let types ← (← f.declaredTypes).entries.mapM fun (x, type) => do
    match ← d.scalarBase? aliases type with
    | some b => return (x, Json.str b.spelling)
    | none => return (x, type)
  return ⟨types⟩

def aliasBounds? (aliases : AliasTable) : List String → Except Error (Option (Json × Json))
  | [] => .ok none
  | name :: chain => do
    match ← aliases.describe? (.str name) with
    | none => aliasBounds? aliases chain
    | some m =>
      if m.lower.isNull || m.upper.isNull then aliasBounds? aliases chain
      else return some (m.lower, m.upper)

/-- The domain that its type gives a variable; none if the type does not bound it or its aliases
form a cycle. -/
def declaredDomain (d : Declarations) (aliases : AliasTable) (x type : Json) :
    Except Error (Option Domain) := do
  match ← d.resolve? aliases type with
  | none => return none
  | some r =>
    if r.isPointer || !r.dims.isEmpty || r.aggregate.isSome then return none
    match r.enum, r.base with
    | some e, _ =>
      let values := (← e.resolved).map fun v => Json.ofScalar v.2
      return some (.enumeration x values (.str "enum"))
    | none, none => return none
    | none, some b =>
      match ← b.bounds d.target with
      | none => return none
      | some (lo, hi) =>
        let range := Domain.range x (.int lo) (.int hi) (.str "type")
        match ← aliasBounds? aliases r.chain.dropLast with
        | some (lo, hi) => return some (← range.intersect (.range x lo hi (.str "typedef")))
        | none => return some range

def guardBounds (e : Expr) (x : Json) (b : BaseType) : Except Error (List Domain) :=
  match x with
  | .str name => (e.comparisonsOn name).filterMapM fun (op, c) =>
      Domain.loopBound x op c b.isInteger
  | _ => .ok []

/-- Narrows the domains of variables by a loop guard; one that does not parse changes nothing. -/
def foldGuard (d : Declarations) (aliases : AliasTable) (types : VariableTypes)
    (domains : Table Json Domain) (guard : String) : Except Error (Table Json Domain) :=
  match Guard.parse guard with
  | .error _ => .ok domains
  | .ok e => types.entries.foldlM (fun domains (x, type) => do
      match (← d.scalarBase? aliases type).filter fun b => b.sort ≠ .bool with
      | none => return domains
      | some b => (← guardBounds e x b).foldlM Domain.narrow domains) domains

/-- The domains of the parameters and locals of a function.  With a body, the guards of its loops
bound the locals. -/
def domains (d : Declarations) (aliases : AliasTable) (f : FunctionDecl) (body : Option Tree) :
    Except Error (Table Json Domain) := do
  let declared ← (← f.declaredTypes).entries.foldlM (fun (t : Table Json Domain) (x, type) => do
    return ((← d.declaredDomain aliases x type).map (t.put x)).getD t) .empty
  match body with
  | some body => (← body.loopGuards).foldlM (d.foldGuard aliases f.properLocals) declared
  | none => return declared

end Declarations

end Branchwise
