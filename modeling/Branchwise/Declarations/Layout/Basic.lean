import Branchwise.Declarations.Resolve

/-!
# Layouts of aggregates

The layout of an aggregate is computed when it is first asked for and kept.  An aggregate that
contains itself by value, or a member of no known size, has no layout; what was computed on the
way is kept all the same.
-/

namespace Branchwise

abbrev LayoutCache := Table Identity Layout

/-- A computation that may fail and keeps the layouts it has computed. -/
abbrev Laying := ExceptT Error (StateM LayoutCache)

namespace Declarations

def declaredCount (m : MemberDecl) : Json := m.arrayLength.orElse (.int 1)

/-- The extent of a member that declares its size.  The alignment it declares, unless that counts as
missing, comes before the natural one. -/
def declaredShape (d : Declarations) (m : MemberDecl) : Except Error MemberShape := do
  let alignment ←
    if m.alignment.isVoid then do
      (← m.size.larger (.int 1)).smaller d.target.maxAlignment
    else pure m.alignment
  return ⟨m.size, alignment, declaredCount m⟩

/-- The number of elements of a member whose type has some by itself.  What is no number may still
be repeated, unless it is null or an object, as long as it is not used. -/
def multiplied (count : Json) (elements : Nat) : Except Error Json :=
  match count with
  | .str _ | .arr _ => .ok count
  | count => return .ofScalar (← Layout.times (← count.asScalar) (.int elements))

/-- The size and the alignment of one element of a type, where the layout of inner aggregates is
computed by a given function. -/
def elementExtent (d : Declarations) (inner : AggregateDecl → Laying Layout) (a : AggregateDecl)
    (m : MemberDecl) (r : ResolvedType) : Laying (Json × Json) :=
  let pointerSize := d.target.pointerSize
  let unsized : Error := .model (.unsized a.kind.name a.name m.name m.type)
  if r.isPointer then do
    return (pointerSize, ← (pointerSize.smaller d.target.maxAlignment : Except Error Json))
  else
    match r.aggregate, r.base with
    | some b, _ => do
      let l ← inner b
      return (.ofScalar l.size, .ofScalar l.alignment)
    | none, some b =>
      if b = .void then throw unsized
      else do
        return (b.size d.target, .ofScalar (← (b.alignment d.target : Except Error Scalar)))
    | none, none => throw unsized

def resolvedShape (d : Declarations) (aliases : Option AliasTable)
    (inner : AggregateDecl → Laying Layout) (a : AggregateDecl) (m : MemberDecl) :
    Laying MemberShape := do
  let type ← (m.type.spelling : Except Error String)
  let r ← (d.resolve aliases type : Except Error ResolvedType)
  let count ← (multiplied (declaredCount m) r.elementCount : Except Error Json)
  let (size, natural) ← d.elementExtent inner a m r
  return ⟨size, if m.alignment.isNull then natural else m.alignment, count⟩

/-- The extent of a member of an aggregate.  A given size needs no type, and a packed aggregate does
not align its members. -/
def memberShape (d : Declarations) (aliases : Option AliasTable)
    (inner : AggregateDecl → Laying Layout) (a : AggregateDecl) (m : MemberDecl) :
    Laying MemberShape := do
  let s ←
    if m.size.isNull then d.resolvedShape aliases inner a m
    else (d.declaredShape m : Except Error MemberShape)
  return if a.isPacked.isVoid then s else { s with alignment := .int 1 }

/-- The layout of an aggregate, whose members are placed one after another. -/
def placeMembers (d : Declarations) (aliases : Option AliasTable)
    (inner : AggregateDecl → Laying Layout) (a : AggregateDecl) : Laying Layout := do
  let shape := d.memberShape aliases inner a
  if a.isUnion then
    let o ← a.members.foldlM (fun (o : Layout.Overlay) m => do
      (o.place m (← shape m) : Except Error Layout.Overlay)) .start
    (o.toLayout : Except Error Layout)
  else
    let p ← a.members.foldlM (fun (p : Layout.Placement) m => do
      (p.place m (← shape m) : Except Error Layout.Placement)) .start
    (p.toLayout : Except Error Layout)

def containsItself (inside : List Json) (a : AggregateDecl) : Error :=
  match (inside ++ [a.name]).mapM Json.asText with
  | .ok chain => .model (.selfContaining chain)
  | .error e => e

def layoutInside (d : Declarations) (aliases : Option AliasTable) :
    Nat → List Json → AggregateDecl → Laying Layout
  | 0, inside, a => throw (containsItself inside a)
  | fuel + 1, inside, a => do
    match (← get).get? a.identity with
    | some l => return l
    | none =>
      if inside.contains a.name then throw (containsItself inside a)
      let l ← d.placeMembers aliases (d.layoutInside aliases fuel (inside ++ [a.name])) a
      modify fun c => c.put a.identity l
      return l

def containmentBound (d : Declarations) : Nat := d.allAggregates.length + 1

/-- Runs a computation of layouts on the declarations and keeps what it computes. -/
def runLaying {α : Type} (d : Declarations) (l : Laying α) : Except Error α × Declarations :=
  let (r, cache) := l.run.run d.layouts
  (r, { d with layouts := cache })

def layout (d : Declarations) (aliases : Option AliasTable) (a : AggregateDecl) : Laying Layout :=
  d.layoutInside aliases d.containmentBound [] a

def aggregateNamed (d : Declarations) (spelling : String) : Except Error AggregateDecl :=
  let core := Spelling.normalize spelling
  let found := match Spelling.tagged? core with
    | some (tag, name) => d.tagged? (.str name) (some tag)
    | none => d.tagged? (.str core) none
  match found with
  | some (.aggregate a) => .ok a
  | _ => .error (.model (.noAggregate spelling))

def byAlignment (l : Layout) (members : List MemberDecl) : List MemberDecl :=
  let alignment (m : MemberDecl) : Scalar :=
    ((l.member? m.name).map MemberLayout.alignment).getD (.int 1)
  members.mergeSort fun a b => !(alignment a).lt (alignment b)

def isDescending : List Scalar → Bool
  | a :: b :: rest => !a.lt b && isDescending (b :: rest)
  | _ => true

def isPadded (l : Layout) : Except Error Bool := do
  if l.size.isTruthy then return l.size.lt (← Layout.times l.padding (.int 4)) else return false

/-- Advice on the room that an aggregate takes: a large size, or much padding. -/
def sizeWarnings (a : AggregateDecl) (l : Layout) : Except Error (List String) := do
  let large ←
    if (Scalar.int 1024).lt l.size then
      pure [a.name.plain ++ ": large aggregate (" ++ (← l.size.write) ++ " bytes)"]
    else pure []
  if ← isPadded l then
    let padding ← l.padding.write
    let size ← l.size.write
    return large ++ [a.name.plain ++ ": " ++ padding ++ " of " ++ size ++ " bytes are padding"]
  return large

/-- Advice on the layout of an aggregate: its size and padding, or an order of the members that
takes less room. -/
def layoutWarnings (d : Declarations) (aliases : Option AliasTable) (a : AggregateDecl) :
    Laying (List String) := do
  let l ← d.layout aliases a
  let sizes ← (sizeWarnings a l : Except Error (List String))
  let alignments := (l.members.filter fun m => m.bitOffset.isNone).map MemberLayout.alignment
  if a.isUnion || isDescending alignments then return sizes
  let inner := d.layoutInside aliases d.containmentBound [a.name]
  let better ← d.placeMembers aliases inner { a with members := byAlignment l a.members }
  if better.size.lt l.size then
    let saved ← ((Layout.minus l.size better.size).bind Scalar.write : Except Error String)
    return sizes
      ++ [a.name.plain ++ ": reordering members by alignment saves " ++ saved ++ " bytes"]
  return sizes

end Declarations

end Branchwise
