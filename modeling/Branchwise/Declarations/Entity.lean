import Branchwise.CType.Spelling

/-!
# Declared entities

What a C unit declares.  An entity is identified by its kind, name, file and line, which are
compared by value.  What a record says is kept as it was stored, and read when it is used.
-/

namespace Branchwise

inductive EntityKind where
  | function
  | variable
  | struct
  | union
  | enum
  | typedef
  | macroDef
  | conditional
  | include
deriving DecidableEq, Repr, Inhabited

namespace EntityKind

def all : List EntityKind :=
  [function, .variable, struct, union, enum, typedef, macroDef, conditional, .include]

def name : EntityKind → String
  | function => "function"
  | .variable => "variable"
  | struct => "struct"
  | union => "union"
  | enum => "enum"
  | typedef => "typedef"
  | macroDef => "macro"
  | conditional => "conditional"
  | .include => "include"

def ofName? (s : String) : Option EntityKind := all.find? fun k => k.name = s

end EntityKind

structure Parameter where
  name : Json
  type : Json
  position : Nat
  isConst : Json
  isVolatile : Json
deriving Repr, Inhabited

namespace Parameter

def spelling (p : Parameter) : String := p.type.textOrEmpty

def isPointer (p : Parameter) : Bool := Spelling.isPointer p.spelling

def pointerDepth (p : Parameter) : Nat := Spelling.pointerDepth p.spelling

def isArray (p : Parameter) : Bool := p.spelling.toList.contains '['

end Parameter

structure VariableDecl where
  name : Json
  type : Json
  file : Json
  line : Json
  /-- The function that owns a local variable; null for a variable of a file. -/
  owner : Json
  isStatic : Json
  isExtern : Json
  isConst : Json
  isVolatile : Json
  initializer : Json
deriving Repr, Inhabited

def VariableDecl.named (name type : Json) : VariableDecl where
  name := name
  type := type
  file := .str ""
  line := .int 0
  owner := .null
  isStatic := .bool false
  isExtern := .bool false
  isConst := .bool false
  isVolatile := .bool false
  initializer := .null

structure FunctionDecl where
  name : Json
  returnType : Json
  parameters : List Parameter
  file : Json
  line : Json
  endLine : Json
  isStatic : Json
  isInline : Json
  isExtern : Json
  isVariadic : Json
  isDeclarationOnly : Json
  calls : List Json
  locals : List VariableDecl
  returnSites : List Json
  cyclomatic : Scalar
  /-- Whether the function lies on a cycle of calls; set when a call graph is built. -/
  isRecursive : Bool
deriving Repr, Inhabited

namespace FunctionDecl

def named (name : Json) : FunctionDecl where
  name := name
  returnType := .str "int"
  parameters := []
  file := .str ""
  line := .int 0
  endLine := .int 0
  isStatic := .bool false
  isInline := .bool false
  isExtern := .bool false
  isVariadic := .bool false
  isDeclarationOnly := .bool false
  calls := []
  locals := []
  returnSites := []
  cyclomatic := .int 1
  isRecursive := false

def hasBody (f : FunctionDecl) : Bool := f.isDeclarationOnly.isVoid

def linkage (f : FunctionDecl) : String := if f.isStatic.isVoid then "external" else "internal"

def parameter? (f : FunctionDecl) (name : Json) : Option Parameter :=
  f.parameters.find? fun p => p.name.equals name

def signature (f : FunctionDecl) : String :=
  let params := f.parameters.map (fun p => p.type.plain ++ " " ++ p.name.plain)
    ++ if f.isVariadic.isVoid then [] else ["..."]
  f.returnType.plain ++ " " ++ f.name.plain ++ "("
    ++ (if params.isEmpty then "void" else Text.join ", " params) ++ ")"

/-- Fills what a record does not know of the body from another record of the same function. -/
def fillFrom (f other : FunctionDecl) : FunctionDecl :=
  let f := if !f.hasBody && other.hasBody then
      { f with isDeclarationOnly := .bool false, endLine := other.endLine }
    else f
  { f with
    calls := if f.calls.isEmpty then other.calls else f.calls
    locals := if f.locals.isEmpty then other.locals else f.locals
    returnSites := if f.returnSites.isEmpty then other.returnSites else f.returnSites
    cyclomatic := if f.cyclomatic.eq (.int 1) then other.cyclomatic else f.cyclomatic }

/-- The function with itself as the owner of the local variables that have none. -/
def ownLocals (f : FunctionDecl) : FunctionDecl :=
  { f with locals := f.locals.map fun v =>
    if v.owner.isNull then { v with owner := f.name } else v }

end FunctionDecl

/-- A member of an aggregate.  A given size is that of one element of an array. -/
structure MemberDecl where
  name : Json
  type : Json
  arrayLength : Json
  bitWidth : Json
  size : Json
  alignment : Json
  line : Json
deriving Repr, Inhabited

namespace MemberDecl

def isPointer (m : MemberDecl) : Except Error Bool := m.type.spelling.map Spelling.isPointer

def isBitField (m : MemberDecl) : Bool := !m.bitWidth.isNull

end MemberDecl

structure AggregateDecl where
  isUnion : Bool
  name : Json
  members : List MemberDecl
  file : Json
  line : Json
  isPacked : Json
deriving Repr, Inhabited

namespace AggregateDecl

def kind (a : AggregateDecl) : EntityKind := if a.isUnion then .union else .struct

def member? (a : AggregateDecl) (name : Json) : Option MemberDecl :=
  a.members.find? fun m => m.name.equals name

end AggregateDecl

/-- A name of an enumeration.  Without a value, which is null then, it has one more than the name
before, or zero; a text is a constant expression. -/
structure Enumerator where
  name : Json
  value : Json
deriving Repr, Inhabited

structure EnumDecl where
  name : Json
  values : List Enumerator
  file : Json
  line : Json
  underlyingType : Json
deriving Repr, Inhabited

structure AliasDecl where
  name : Json
  type : Json
  file : Json
  line : Json
deriving Repr, Inhabited

namespace AliasDecl

def spelling (a : AliasDecl) : Except Error String :=
  match a.type with
  | .str s => .ok s
  | _ => .error .notRecord

def isFunctionPointer (a : AliasDecl) : Except Error Bool :=
  a.spelling.map fun s => Text.occurs "(*".toList (s.toList.filter (· ≠ ' '))

def isPointer (a : AliasDecl) : Except Error Bool := do
  return !(← a.isFunctionPointer) && Spelling.isPointer (← a.spelling)

def isArray (a : AliasDecl) : Except Error Bool := a.spelling.map fun s => s.toList.contains '['

end AliasDecl

structure MacroDecl where
  name : Json
  value : String
  parameters : Json
  file : Json
  line : Json
  dependencies : List Json
  isEnabled : Json
  usageCount : Json
deriving Repr, Inhabited

def MacroDecl.isFunctionLike (m : MacroDecl) : Bool := !m.parameters.isNull

structure ConditionalDecl where
  directive : Json
  condition : Json
  file : Json
  line : Json
  endLine : Json
  dependencies : List Json
  parentLine : Json
  isSatisfied : Json
deriving Repr, Inhabited

def ConditionalDecl.name (c : ConditionalDecl) : String :=
  Text.trim ("#" ++ c.directive.plain ++ " " ++ c.condition.plain)

structure IncludeDecl where
  path : Json
  file : Json
  line : Json
  isSystem : Json
deriving Repr, Inhabited

inductive Entity where
  | function (f : FunctionDecl)
  | variable (v : VariableDecl)
  | aggregate (a : AggregateDecl)
  | enum (e : EnumDecl)
  | typedef (a : AliasDecl)
  | macroDef (m : MacroDecl)
  | conditional (c : ConditionalDecl)
  | include (i : IncludeDecl)
deriving Repr, Inhabited

structure Identity where
  kind : EntityKind
  name : Json
  file : Json
  line : Json
deriving BEq, Repr, Inhabited

def Identity.isKey (i : Identity) : Bool := i.name.isKey && i.file.isKey && i.line.isKey

def AggregateDecl.identity (a : AggregateDecl) : Identity := ⟨a.kind, a.name, a.file, a.line⟩

namespace Entity

def identity : Entity → Identity
  | function f => ⟨.function, f.name, f.file, f.line⟩
  | .variable v => ⟨.variable, v.name, v.file, v.line⟩
  | aggregate a => a.identity
  | enum e => ⟨.enum, e.name, e.file, e.line⟩
  | typedef a => ⟨.typedef, a.name, a.file, a.line⟩
  | macroDef m => ⟨.macroDef, m.name, m.file, m.line⟩
  | conditional c => ⟨.conditional, .str c.name, c.file, c.line⟩
  | .include i => ⟨.include, i.path, i.file, i.line⟩

def kind (e : Entity) : EntityKind := e.identity.kind

def name (e : Entity) : Json := e.identity.name

def isDeclarationOnly : Entity → Bool
  | function f => !f.hasBody
  | _ => false

end Entity

/-! ## Placing the members of an aggregate

Each member of a struct is placed at the next multiple of its alignment, and the size is rounded up
to the greatest alignment.  Consecutive bit-fields share a storage unit of their type while they
fit.  The members of a union all start at zero. -/

structure MemberLayout where
  name : Json
  offset : Scalar
  size : Scalar
  alignment : Scalar
  bitOffset : Option Scalar
  bitWidth : Json
deriving Repr, Inhabited

structure Layout where
  size : Scalar
  alignment : Scalar
  members : List MemberLayout
  padding : Scalar
deriving Repr, Inhabited

def Layout.member? (l : Layout) (name : Json) : Option MemberLayout :=
  l.members.find? fun m => m.name.equals name

/-- The extent of a member: the size of an element, its alignment, and the number of elements. -/
structure MemberShape where
  size : Json
  alignment : Json
  count : Json
deriving Repr, Inhabited

namespace Layout

/-- The result of an operation on two sizes, unless one of them is too large. -/
def sized (op : Scalar → Scalar → Option Scalar) (a b : Scalar) : Except Error Scalar :=
  (op a b).elim (.error .overflow) .ok

def plus (a b : Scalar) : Except Error Scalar := sized Scalar.add? a b

def minus (a b : Scalar) : Except Error Scalar := sized Scalar.sub? a b

def times (a b : Scalar) : Except Error Scalar := sized Scalar.mul? a b

def alignUp (value alignment : Scalar) : Except Error Scalar := do
  if alignment.le (.int 1) then return value
  let reach ← minus (← plus value alignment) (.int 1)
  times (← sized Scalar.floorDiv? reach alignment) alignment

end Layout

def MemberShape.bytes (s : MemberShape) : Except Error Scalar := do
  Layout.times (← s.size.asScalar) (← s.count.asScalar)

namespace Layout

structure OpenUnit where
  start : Scalar
  size : Scalar
  /-- The bits taken so far, a number if the widths of the bit-fields in it are. -/
  bitsUsed : Json
deriving Repr, Inhabited

structure Placement where
  offset : Scalar
  alignment : Scalar
  dataBytes : Scalar
  placed : List MemberLayout
  unit : Option OpenUnit
deriving Repr, Inhabited

namespace Placement

def start : Placement := ⟨.int 0, .int 1, .int 0, [], none⟩

def plain (p : Placement) (m : MemberDecl) (s : MemberShape) (alignment : Scalar) :
    Except Error Placement := do
  let offset ← alignUp p.offset alignment
  let bytes ← s.bytes
  return { p with
    unit := none
    offset := ← plus offset bytes
    dataBytes := ← plus p.dataBytes bytes
    placed := p.placed ++ [⟨m.name, offset, bytes, alignment, none, .null⟩] }

def openUnit (p : Placement) (m : MemberDecl) (s : MemberShape) (alignment : Scalar) :
    Except Error Placement := do
  let offset ← alignUp p.offset alignment
  let size ← s.size.asScalar
  return { p with
    unit := some ⟨offset, size, m.bitWidth⟩
    offset := ← plus offset size
    dataBytes := ← plus p.dataBytes size
    placed := p.placed ++ [⟨m.name, offset, size, alignment, some (.int 0), m.bitWidth⟩] }

/-- Places a bit-field in an open storage unit of its size, or in a new one if it does not fit. -/
def shareUnit (p : Placement) (u : OpenUnit) (m : MemberDecl) (s : MemberShape)
    (alignment : Scalar) : Except Error Placement := do
  let used ← u.bitsUsed.asScalar
  let after ← plus used (← m.bitWidth.asScalar)
  if after.le (← times u.size (.int 8)) then
    let size := (s.size.scalar?).getD u.size
    return { p with
      unit := some { u with bitsUsed := .ofScalar after }
      placed := p.placed ++ [⟨m.name, u.start, size, alignment, some used, m.bitWidth⟩] }
  p.openUnit m s alignment

/-- Places a bit-field, in the open storage unit if that has its size and enough room. -/
def bitField (p : Placement) (m : MemberDecl) (s : MemberShape) (alignment : Scalar) :
    Except Error Placement := do
  if m.bitWidth.isVoid then return { p with unit := none, offset := ← alignUp p.offset alignment }
  match p.unit.filter fun u => (Json.ofScalar u.size).equals s.size with
  | some u => p.shareUnit u m s alignment
  | none => p.openUnit m s alignment

def place (p : Placement) (m : MemberDecl) (s : MemberShape) : Except Error Placement := do
  let alignment ← s.alignment.asScalar
  let p := { p with alignment := p.alignment.max alignment }
  if m.isBitField then p.bitField m s alignment else p.plain m s alignment

def toLayout (p : Placement) : Except Error Layout := do
  let size ← alignUp p.offset p.alignment
  return ⟨size, p.alignment, p.placed, ← minus size p.dataBytes⟩

end Placement

structure Overlay where
  alignment : Scalar
  largest : Scalar
  placed : List MemberLayout
deriving Repr, Inhabited

namespace Overlay

def start : Overlay := ⟨.int 1, .int 0, []⟩

def place (o : Overlay) (m : MemberDecl) (s : MemberShape) : Except Error Overlay := do
  let alignment ← s.alignment.asScalar
  let bytes ← s.bytes
  let bit := if m.isBitField then some (.int 0) else none
  return {
    alignment := o.alignment.max alignment
    largest := o.largest.max bytes
    placed := o.placed ++ [⟨m.name, .int 0, bytes, alignment, bit, m.bitWidth⟩] }

def toLayout (o : Overlay) : Except Error Layout := do
  let size ← alignUp o.largest o.alignment
  return ⟨size, o.alignment, o.placed, ← minus size o.largest⟩

end Overlay

/-- The offsets by name; a repeated name keeps its first place and its last offset. -/
def offsets (l : Layout) : Table Json Scalar := .ofList (l.members.map fun m => (m.name, m.offset))

end Layout

end Branchwise
