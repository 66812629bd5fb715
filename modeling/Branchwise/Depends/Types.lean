import Branchwise.Declarations.Resolve
import Branchwise.Graph.Digraph

/-!
# Dependency graphs

Nodes are types or files under a key, edges say how one depends on another.  A node keeps the edges
that reach and leave it, in order.
-/

namespace Branchwise

/-! ## Graphs of stored values

The nodes of a graph may be any stored values that can be keys.  A component is read off a stack
down to the node that it starts with, so that none is found for what is no number and equals
nothing. -/

namespace Digraph

def checkKeys (g : Digraph Json) : Except Error Unit :=
  if g.discovered.all Json.isKey then .ok () else .error .mistyped

def valueComponents (g : Digraph Json) : Except Error (List (List Json)) :=
  if g.discovered.any Json.isNaN then .error .exhausted else .ok g.components

end Digraph

/-! ## Graphs -/

inductive DepKind where
  | contains
  | pointsTo
  | aliases
  | includes
deriving DecidableEq, Repr, Inhabited

namespace DepKind

def all : List DepKind := [contains, pointsTo, aliases, includes]

def name : DepKind → String
  | contains => "CONTAINS"
  | pointsTo => "POINTS_TO"
  | aliases => "ALIASES"
  | includes => "INCLUDES"

def ofName? (s : String) : Option DepKind := all.find? fun k => k.name = s

def style : DepKind → String
  | contains => "color=\"blue\", style=\"bold\""
  | pointsTo => "color=\"gray40\", style=\"dashed\""
  | aliases => "color=\"darkgreen\", style=\"dotted\""
  | includes => "color=\"black\""

end DepKind

structure DepEdge where
  source : Json
  target : Json
  kind : DepKind
  /-- The member that brings the dependency about; empty if there is none. -/
  via : Json
  line : Json
deriving Repr, Inhabited

def DepEdge.text (e : DepEdge) : String :=
  "DepEdge(" ++ e.source.plain ++ "→" ++ e.target.plain ++ " " ++ e.kind.name
    ++ (if e.via.isVoid then "" else " [" ++ e.via.plain ++ "]") ++ ")"

structure DepNode where
  key : Json
  name : Json
  kind : Json
  file : Json
  line : Json
  inEdges : List DepEdge
  outEdges : List DepEdge
deriving Repr, Inhabited

namespace DepNode

def ofKind (kind : Option DepKind) (e : DepEdge) : Bool :=
  match kind with
  | some k => e.kind = k
  | none => true

def predecessors (n : DepNode) (kind : Option DepKind) : List Json :=
  (n.inEdges.filter (ofKind kind)).map DepEdge.source

def successors (n : DepNode) (kind : Option DepKind) : List Json :=
  (n.outEdges.filter (ofKind kind)).map DepEdge.target

end DepNode

inductive DepScope where
  | any
  | types
  | files
deriving DecidableEq, Repr, Inhabited

namespace DepScope

def title : DepScope → String
  | any => "Dependencies"
  | types => "Type dependencies"
  | files => "Includes"

def name : DepScope → String
  | any => "DependencyGraph"
  | types => "TypeDependencyGraph"
  | files => "IncludeDependencyGraph"

end DepScope

structure DepGraph where
  scope : DepScope
  nodes : Table Json DepNode
  edges : List DepEdge
deriving Repr, Inhabited

namespace DepGraph

def empty (scope : DepScope) : DepGraph := ⟨scope, .empty, []⟩

def contains (g : DepGraph) (key : Json) : Bool := g.nodes.contains key

def addNode (g : DepGraph) (key name kind file line : Json) : DepGraph :=
  { g with nodes := g.nodes.putNew key ⟨key, name, kind, file, line, [], []⟩ }

def noNode (key : Json) : Error := if key.isKey then .missingNode key else .mistyped

/-- Adds an edge to the lists of its two nodes and to the list of all edges.  An unknown source
changes nothing; an unknown target leaves the edge in the list of its source. -/
def addEdge (g : DepGraph) (e : DepEdge) : Except Error Unit × DepGraph :=
  if !g.contains e.source then (.error (noNode e.source), g)
  else
    let left := g.nodes.adjust e.source fun n => { n with outEdges := n.outEdges ++ [e] }
    if !g.contains e.target then (.error (noNode e.target), { g with nodes := left })
    else
      (.ok (), { g with
        nodes := left.adjust e.target fun n => { n with inEdges := n.inEdges ++ [e] }
        edges := g.edges ++ [e] })

/-! ## Queries -/

def ofKind (g : DepGraph) (kind : DepKind) : List DepEdge := g.edges.filter fun e => e.kind = kind

def follows (kinds : Option (List DepKind)) (k : DepKind) : Bool :=
  match kinds with
  | some ks => ks.contains k
  | none => true

def digraph (g : DepGraph) (kinds : Option (List DepKind)) : Digraph Json where
  nodes := g.nodes.keys
  next := g.nodes.mapValues fun n =>
    (n.outEdges.filter fun e => follows kinds e.kind).map DepEdge.target

def known (g : DepGraph) (keys : List Json) : Except Error Unit :=
  match keys.find? fun k => !g.contains k with
  | some k => .error (noNode k)
  | none => .ok ()

def cycles (g : DepGraph) (kinds : Option (List DepKind)) : Except Error (List (List Json)) := do
  let d := g.digraph kinds
  g.known d.discovered
  return d.cycles Json.plain

/-- All keys, each after those it depends on unless they depend on it. -/
def order (g : DepGraph) : Except Error (List Json) := do
  let d := g.digraph none
  g.known d.discovered
  return (← d.valueComponents).flatten

def reachable (g : DepGraph) (key : Json) (kinds : Option (List DepKind)) :
    Except Error (List Json) := do
  g.known [key]
  let keys := (g.digraph kinds).reachable key
  g.known keys
  return keys

/-- The number of edges of each kind that occurs, in order of first occurrence. -/
def kindCounts (g : DepGraph) : List (DepKind × Nat) :=
  ((g.edges.map DepEdge.kind).eraseDups).map fun k => (k, (g.ofKind k).length)

/-! ## Texts -/

def dot (g : DepGraph) (title : Json) : String :=
  let head := ["digraph \"" ++ (title.orElse (.str g.scope.title)).plain ++ "\" \x7b",
    "  rankdir=LR;", "  node [shape=box, fontname=\"Courier\", fontsize=10];",
    "  edge [fontname=\"Courier\", fontsize=8];"]
  let nodes := g.nodes.values.map fun n =>
    "  \"" ++ n.key.plain ++ "\" [label=\"" ++ n.key.plain ++ "\"];"
  let edges := g.edges.map fun e =>
    let label := (e.via.orElse (.str e.kind.name)).plain
    "  \"" ++ e.source.plain ++ "\" -> \"" ++ e.target.plain ++ "\" [label=\"" ++ label ++ "\", "
      ++ e.kind.style ++ "];"
  Text.join "\n" (head ++ nodes ++ edges ++ ["\x7d"])

def text (g : DepGraph) : String :=
  g.scope.name ++ s!"(nodes={g.nodes.size}, edges={g.edges.length})"

/-! ## Types

The nodes are the aggregates and enumerations of a unit, under keys with their tag, and its aliases
under their names, so that an alias with the name of an aggregate stays apart from it. -/

def taggedKey (kind : EntityKind) (name : Json) : Json := .str (kind.name ++ " " ++ name.plain)

def link (g : DepGraph) (e : DepEdge) : DepGraph := (g.addEdge e).2

def typeNodes (d : Declarations) : DepGraph :=
  let g := d.aggregates.foldl (fun (g : DepGraph) a =>
    g.addNode (taggedKey a.kind a.name) a.name (.str a.kind.name) a.file a.line) (.empty .types)
  let g := d.enums.foldl (fun (g : DepGraph) e =>
    g.addNode (taggedKey .enum e.name) e.name (.str "enum") e.file e.line) g
  d.typedefs.foldl (fun (g : DepGraph) a =>
    g.addNode a.name a.name (.str "typedef") a.file a.line) g

def targetKey? (r : ResolvedType) : Option Json :=
  match r.aggregate, r.enum with
  | some a, _ => some (taggedKey a.kind a.name)
  | none, some e => some (taggedKey .enum e.name)
  | none, none => none

def resolve? (d : Declarations) (aliases : Option AliasTable) (spelling : String) :
    Except Error (Option ResolvedType) :=
  match d.resolve aliases spelling with
  | .ok r => .ok (some r)
  | .error (.aliasCycle _) => .ok none
  | .error e => .error e

/-- What a member depends on, and how: by value, or through a pointer on the type behind it.  A
cycle of aliases depends on nothing. -/
def memberTarget? (d : Declarations) (aliases : Option AliasTable) (m : MemberDecl) :
    Except Error (Option (Json × DepKind)) := do
  match ← resolve? d aliases (← m.type.spelling) with
  | none => return none
  | some r =>
    if r.isPointer then
      return ((← resolve? d aliases r.core).bind targetKey?).map fun k => (k, .pointsTo)
    else return (targetKey? r).map fun k => (k, .contains)

def linkMembers (d : Declarations) (aliases : Option AliasTable) (g : DepGraph)
    (a : AggregateDecl) : Except Error DepGraph :=
  a.members.foldlM (fun (g : DepGraph) m => do
    match ← memberTarget? d aliases m with
    | some (target, kind) =>
      if g.contains target then
        return g.link ⟨taggedKey a.kind a.name, target, kind, m.name, m.line⟩
      else return g
    | none => return g) g

/-- The node that an alias names, once stars and array suffixes are taken off its type. -/
def aliasTargetKey? (d : Declarations) (g : DepGraph) (type : String) : Option Json :=
  let core := Json.str (Text.join " " ((Text.words (Spelling.normalize type)).filter fun w =>
    w ≠ "*" && w.toList.head? ≠ some '['))
  if g.contains core then some core
  else
    match d.tagged? core none with
    | some e =>
      let key := taggedKey e.kind e.name
      if g.contains key then some key else none
    | none => none

def linkAlias (d : Declarations) (g : DepGraph) (a : AliasDecl) : Except Error DepGraph := do
  if ← a.isFunctionPointer then return g
  match aliasTargetKey? d g (← a.spelling) with
  | some target => return g.link ⟨a.name, target, .aliases, .str "", a.line⟩
  | none => return g

def ofTypes (d : Declarations) (aliases : Option AliasTable) : Except Error DepGraph := do
  let g ← d.aggregates.foldlM (linkMembers d aliases) (typeNodes d)
  d.typedefs.foldlM (linkAlias d) g

def selfReferences (g : DepGraph) : List Json :=
  (g.nodes.values.filter fun n => n.outEdges.any fun e =>
    e.target.equals n.key && (e.kind = .contains || e.kind = .pointsTo)).map DepNode.name

def containmentCycles (g : DepGraph) : List (List Json) :=
  match g.cycles (some [.contains]) with
  | .ok cycles => cycles.map fun c => c.map fun k => ((g.nodes.get? k).map DepNode.name).getD k
  | .error _ => []

def dependents (g : DepGraph) (key : Json) : List Json :=
  match g.nodes.get? key with
  | some n => n.predecessors none
  | none => []

/-! ## Files -/

def ofIncludes (d : Declarations) : DepGraph :=
  d.includes.foldl (fun (g : DepGraph) i =>
    let kind := if i.isSystem.isVoid then "file" else "system"
    let g := g.addNode i.file i.file (.str "file") (.str "") (.int 0)
    let g := g.addNode i.path i.path (.str kind) (.str "") (.int 0)
    g.link ⟨i.file, i.path, .includes, .str "", i.line⟩) (.empty .files)

/-- The files that a file includes, directly or not; none for an unknown file. -/
def includedFrom (g : DepGraph) (file : Json) : List Json :=
  match g.reachable file none with
  | .ok keys => keys
  | .error _ => []

def systemHeaders (g : DepGraph) : List Json :=
  (g.nodes.values.filter fun n => n.kind == .str "system").map DepNode.key

end DepGraph

end Branchwise
