import Branchwise.Declarations.Entity
import Branchwise.Guard.Parser

/-!
# The declarations of a unit

The entities stand in the order of their first addition.  Two stores refer to them by their places:
a table of identities for each kind, and an index of names.  Adding an entity a second time fills
what a function does not know of its body, and changes nothing else.
-/

namespace Branchwise

structure Declarations where
  target : Target
  entities : List Entity
  /-- The places of the entities of each kind by their identities. -/
  tables : Table EntityKind (Table Identity Nat)
  /-- The places of the entities of each name. -/
  index : Table Json (List Nat)
  layouts : Table Identity Layout
deriving Repr, Inhabited

namespace Declarations

def empty (t : Target) : Declarations := ⟨t, [], .empty, .empty, .empty⟩

def table (d : Declarations) (k : EntityKind) : Table Identity Nat :=
  (d.tables.get? k).getD .empty

def named (d : Declarations) (name : Json) : List Nat := (d.index.get? name).getD []

/-- The entities at some places. -/
def fetch (d : Declarations) (places : List Nat) : List Entity :=
  places.filterMap fun place => d.entities[place]?

/-- What is stored when an entity is added to a stored one with the same identity. -/
def mergeEntity : Entity → Entity → Entity
  | .function f, .function g => .function (f.fillFrom g)
  | e, _ => e

/-- An entity as it is added: the local variables of a function get an owner. -/
def prepared : Entity → Entity
  | .function f => .function f.ownLocals
  | e => e

def lookup? (d : Declarations) (i : Identity) : Option Entity :=
  ((d.table i.kind).get? i).bind fun place => d.entities[place]?

def update (d : Declarations) (i : Identity) (f : Entity → Entity) : Declarations :=
  { d with entities := d.entities.map fun e => if e.identity == i then f e else e }

/-- Stores a new entity: its place is entered in the table of its kind and under its name. -/
def store (d : Declarations) (e : Entity) : Declarations :=
  let place := d.entities.length
  { d with
    entities := d.entities ++ [e]
    tables := d.tables.put e.kind ((d.table e.kind).put e.identity place)
    index := d.index.put e.name (d.named e.name ++ [place]) }

def add (d : Declarations) (e : Entity) : Bool × Entity × Declarations :=
  let e := prepared e
  match d.lookup? e.identity with
  | some old =>
    let merged := mergeEntity old e
    (false, merged, d.update e.identity fun _ => merged)
  | none => (true, e, d.store e)

def insert (d : Declarations) (e : Entity) : Except Error (Bool × Entity × Declarations) :=
  if e.identity.isKey then .ok (d.add e) else .error .mistyped

/-! ## Queries -/

def size (d : Declarations) : Nat := d.tables.values.foldl (fun n t => n + t.size) 0

def ofKind (d : Declarations) (k : EntityKind) : List Entity := d.fetch (d.table k).values

def findAll (d : Declarations) (name : Json) : List Entity := d.fetch (d.named name)

def contains (d : Declarations) (name : Json) : Bool := !(d.findAll name).isEmpty

/-- The first of some entities that is no mere declaration, or else the first. -/
def preferred (es : List Entity) : Option Entity :=
  (es.find? fun e => !e.isDeclarationOnly).or es.head?

def find? (d : Declarations) (name : Json) (kind : Option EntityKind) : Option Entity :=
  preferred ((d.findAll name).filter fun e => kind.all fun k => e.kind = k)

def functions (d : Declarations) : List FunctionDecl :=
  (d.ofKind .function).filterMap fun | .function f => some f | _ => none

def definedFunctions (d : Declarations) : List FunctionDecl :=
  d.functions.filter FunctionDecl.hasBody

def variableDecls (d : Declarations) : List VariableDecl :=
  (d.ofKind .variable).filterMap fun | .variable v => some v | _ => none

def allAggregates (d : Declarations) : List AggregateDecl :=
  d.entities.filterMap fun | .aggregate a => some a | _ => none

def aggregatesOf (d : Declarations) (k : EntityKind) : List AggregateDecl :=
  (d.ofKind k).filterMap fun | .aggregate a => some a | _ => none

def structs (d : Declarations) : List AggregateDecl := d.aggregatesOf .struct

def unions (d : Declarations) : List AggregateDecl := d.aggregatesOf .union

def aggregates (d : Declarations) : List AggregateDecl := d.structs ++ d.unions

def enums (d : Declarations) : List EnumDecl :=
  (d.ofKind .enum).filterMap fun | .enum e => some e | _ => none

def typedefs (d : Declarations) : List AliasDecl :=
  (d.ofKind .typedef).filterMap fun | .typedef a => some a | _ => none

def macros (d : Declarations) : List MacroDecl :=
  (d.ofKind .macroDef).filterMap fun | .macroDef m => some m | _ => none

def conditionals (d : Declarations) : List ConditionalDecl :=
  (d.ofKind .conditional).filterMap fun | .conditional c => some c | _ => none

def includes (d : Declarations) : List IncludeDecl :=
  (d.ofKind .include).filterMap fun | .include i => some i | _ => none

def function? (d : Declarations) (name : Json) : Option FunctionDecl :=
  match d.find? name (some .function) with
  | some (.function f) => some f
  | _ => none

def hasFunction (d : Declarations) (name : Json) : Bool := (d.function? name).isSome

def getFunction (d : Declarations) (name : Json) : Except Error FunctionDecl :=
  match d.function? name with
  | some f => .ok f
  | none => .error (if name.isKey then .functionNotFound name else .mistyped)

def typedef? (d : Declarations) (name : Json) : Option AliasDecl :=
  match d.find? name (some .typedef) with
  | some (.typedef a) => some a
  | _ => none

def macroNamed? (d : Declarations) (name : Json) : Option MacroDecl :=
  match d.find? name (some .macroDef) with
  | some (.macroDef m) => some m
  | _ => none

/-- The entity of a name among structs, then unions, then enumerations, or among those of one tag.
-/
def tagged? (d : Declarations) (name : Json) (tag : Option EntityKind) : Option Entity :=
  match tag with
  | some k => d.find? name (some k)
  | none => ((d.find? name (some .struct)).or (d.find? name (some .union))).or
      (d.find? name (some .enum))

def text (d : Declarations) : String :=
  let counts := EntityKind.all.filterMap fun k =>
    let n := (d.ofKind k).length
    if n = 0 then none else some (k.name ++ s!"s={n}")
  "EntityModel(" ++ Text.join ", " counts ++ ")"

end Declarations

/-! ## Constants

The values of enumerators and of macros whose body is a number.  An enumerator without a value has
one more than the one before; an expression may use the enumerators before it. -/

/-- The integer value of an expression over known names: constants, sign, negation and the four
operations with remainder, where division goes toward zero. -/
def Expr.fold (known : Table Json Scalar) : Expr → Option Int
  | .int n => some n
  | .bool b => some (if b then 1 else 0)
  | .name x => (known.get? (.str x)).bind Scalar.int?
  | .real _ => none
  | .unary .neg e => (e.fold known).map fun n => -n
  | .unary .not e => (e.fold known).map fun n => if n = 0 then 1 else 0
  | .binary op l r => do
    let a ← l.fold known
    let b ← r.fold known
    match op with
    | .add => some (a + b)
    | .sub => some (a - b)
    | .mul => some (a * b)
    | .div => if b = 0 then none else some (Int.tdiv a b)
    | .rem => if b = 0 then none else some (a - b * Int.tdiv a b)
    | _ => none

namespace EnumDecl

/-- The value of an expression of an enumerator; a single name stands for the value as it is. -/
def expressionValue? (known : Table Json Scalar) (text : String) : Option Scalar :=
  match Guard.parse text with
  | .ok (.name x) => known.get? (.str x)
  | .ok e => (e.fold known).map Scalar.int
  | .error _ => none

/-- The value of an enumerator, given those before it and the next implicit value.  A value that is
no integer is read as the expression that its text is. -/
def enumeratorValue (e : EnumDecl) (known : Table Json Scalar) (next : Int) (v : Enumerator) :
    Except Error Scalar :=
  match v.value with
  | .null => .ok (.int next)
  | .int n => .ok (.int n)
  | .bool b => .ok (.bool b)
  | value =>
    match expressionValue? known value.plain with
    | some x => .ok x
    | none => .error (.model (.enumerator e.name v.name value))

def evaluateFrom (e : EnumDecl) (known : Table Json Scalar) (next : Int) :
    List Enumerator → Except Error (List (Json × Scalar))
  | [] => .ok []
  | v :: vs => do
    let x ← e.enumeratorValue known next v
    let name ← v.name.asKey
    let rest ← e.evaluateFrom (known.put name x) ((x.int?.getD 0) + 1) vs
    return (name, x) :: rest

def resolved (e : EnumDecl) : Except Error (List (Json × Scalar)) :=
  e.evaluateFrom .empty 0 e.values

end EnumDecl

def MacroDecl.numeric? (m : MacroDecl) : Option Scalar :=
  if m.isFunctionLike || Text.isAllBlank m.value then none
  else
    match Guard.parse m.value with
    | .ok e => e.constant?
    | .error _ => none

namespace Declarations

def macroValue? (d : Declarations) (name : Json) : Option Scalar :=
  match d.macroNamed? name with
  | some m => if m.isEnabled.isVoid then none else m.numeric?
  | none => none

def addEnumerators (t : Table Json Scalar) (e : EnumDecl) : Except Error (Table Json Scalar) :=
  match e.resolved with
  | .ok vs => .ok (vs.foldl (fun t v => t.put v.1 v.2) t)
  | .error (.model _) => .ok t
  | .error err => .error err

/-- The values of all enumerators and macros by name.  A macro does not replace an enumerator. -/
def constants (d : Declarations) : Except Error (Table Json Scalar) := do
  let fromEnums ← d.enums.foldlM addEnumerators .empty
  return d.macros.foldl (fun t m =>
    match if m.isEnabled.isVoid then none else m.numeric? with
    | some v => t.putNew m.name v
    | none => t) fromEnums

end Declarations

end Branchwise
