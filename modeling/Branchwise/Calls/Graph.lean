import Branchwise.Body.Tree
import Branchwise.Declarations.Basic
import Branchwise.Graph.Digraph

/-!
# Call graphs

The nodes are functions by name, defined in the unit or only declared; the edges are call sites.  A
call of a function that is not a node is kept apart.  A function is recursive when it lies on a
cycle of calls.
-/

namespace Branchwise

structure CallNode where
  name : Json
  isExternal : Bool
  record : Identity
  depth : Option Nat
  isRecursive : Bool
deriving Repr, Inhabited

structure CallSite where
  caller : Json
  callee : Json
  file : Json
  line : Json
deriving BEq, Repr, Inhabited

structure CallGraph where
  nodes : Table Json CallNode
  edges : List CallSite
  unresolved : List CallSite
  root : Option Json
deriving Repr, Inhabited

namespace CallNode

def kindName (n : CallNode) : String := if n.isExternal then "external" else "function"

def text (n : CallNode) : String :=
  "CallGraphNode(" ++ n.name.display ++ ", kind=" ++ n.kindName ++ ")"

end CallNode

def CallSite.text (e : CallSite) : String :=
  let place := if e.line.isVoid then "" else " @ " ++ e.file.plain ++ ":" ++ e.line.plain
  "CallGraphEdge(" ++ e.caller.plain ++ " -> " ++ e.callee.plain ++ place ++ ")"

namespace CallGraph

def empty : CallGraph := ⟨.empty, [], [], none⟩

def contains (g : CallGraph) (name : Json) : Bool := g.nodes.contains name

def addNode (g : CallGraph) (name : Json) (isExternal : Bool) (record : Identity) : CallGraph :=
  { g with nodes := g.nodes.putNew name ⟨name, isExternal, record, none, false⟩ }

def addEdge (g : CallGraph) (e : CallSite) : CallGraph :=
  if g.edges.contains e then g else { g with edges := g.edges ++ [e] }

/-! ## Queries -/

def node (g : CallGraph) (name : Json) : Except Error CallNode :=
  match g.nodes.get? name with
  | some n => .ok n
  | none => .error (if name.isKey then .functionNotFound name else .mistyped)

def outEdges (g : CallGraph) (name : Json) : List CallSite :=
  g.edges.filter fun e => e.caller == name

def inEdges (g : CallGraph) (name : Json) : List CallSite :=
  g.edges.filter fun e => e.callee == name

/-- The functions that a function calls, each once, in the order of their first calls. -/
def callees (g : CallGraph) (name : Json) : List Json :=
  ((g.outEdges name).map CallSite.callee).eraseDups

def callers (g : CallGraph) (name : Json) : List Json :=
  ((g.inEdges name).map CallSite.caller).eraseDups

def digraph (g : CallGraph) : Digraph Json :=
  ⟨g.nodes.keys, ⟨g.nodes.keys.map fun k => (k, g.callees k)⟩⟩

def callerDigraph (g : CallGraph) : Digraph Json :=
  ⟨g.nodes.keys, ⟨g.nodes.keys.map fun k => (k, g.callers k)⟩⟩

def callsItself (g : CallGraph) (name : Json) : Bool :=
  (g.outEdges name).any fun e => e.callee == name

def roots (g : CallGraph) : List Json :=
  (g.nodes.values.filter fun n => (g.inEdges n.name).isEmpty && !n.isExternal).map CallNode.name

def leaves (g : CallGraph) : List Json :=
  (g.nodes.values.filter fun n => (g.outEdges n.name).isEmpty).map CallNode.name

/-- All functions that a function reaches by calls; itself only if it is recursive. -/
def transitiveCallees (g : CallGraph) (name : Json) : Except Error (List Json) := do
  let _ ← g.node name
  return g.digraph.reachable name

def transitiveCallers (g : CallGraph) (name : Json) : Except Error (List Json) := do
  let _ ← g.node name
  return g.callerDigraph.reachable name

def cycles (g : CallGraph) : List (List Json) := g.digraph.cycles Json.plain

def components (g : CallGraph) : List (List Json) := g.digraph.components

/-- All functions, callees before callers; the members of a cycle are neighbours. -/
def order (g : CallGraph) : List Json := g.components.flatten

def recursiveFunctions (g : CallGraph) : List Json :=
  (g.nodes.values.filter CallNode.isRecursive).map CallNode.name

/-- Marks the functions that call themselves or share a component with others. -/
def markRecursive (g : CallGraph) : CallGraph :=
  let cyclic := (g.components.filter fun c => 1 < c.length).flatten
  { g with nodes := g.nodes.mapValues fun n =>
      { n with isRecursive := cyclic.contains n.name || g.callsItself n.name } }

/-! ## Subgraphs -/

def atLimit (limit : Scalar) (depth : Nat) : Bool :=
  (Scalar.int 0).le limit && limit.le (.int depth)

def depthLoop (g : CallGraph) (limit : Scalar) : Nat → List Json → Table Json Nat → Table Json Nat
  | 0, _, depths => depths
  | _ + 1, [], depths => depths
  | fuel + 1, name :: queue, depths =>
    let d := (depths.get? name).getD 0
    let new := if atLimit limit d then []
      else (g.callees name).filter fun c => !depths.contains c
    g.depthLoop limit fuel (queue ++ new) (new.foldl (fun t c => t.put c (d + 1)) depths)

/-- The distances from a root of the functions within a limit, in order of discovery. -/
def depths (g : CallGraph) (root : Json) (limit : Scalar) : Table Json Nat :=
  g.depthLoop limit (g.nodes.size + 1) [root] (.ofList [(root, 0)])

def subgraph (g : CallGraph) (root limit : Json) : Except Error CallGraph := do
  let start ← g.node root
  let limit ← limit.asScalar
  let depths := g.depths start.name limit
  let nodes := depths.entries.filterMap fun (name, d) =>
    (g.nodes.get? name).map fun n => (name, { n with depth := some d })
  let edges := depths.entries.flatMap fun (name, d) =>
    if atLimit limit d then [] else (g.outEdges name).filter fun e => depths.contains e.callee
  let sub : CallGraph := {
    nodes := ⟨nodes⟩
    edges := edges
    unresolved := g.unresolved.filter fun u => depths.contains u.caller
    root := some root }
  return sub.markRecursive

/-! ## Chains of calls -/

/-- Collects the chains that extend a chain, the last collected first.  Nothing is added once there
are enough. -/
def chainsFrom (g : CallGraph) (limit enough : Scalar) :
    Nat → List Json → Nat × List (List Json) → Nat × List (List Json)
  | 0, path, (n, found) => (n + 1, path :: found)
  | fuel + 1, path, (n, found) =>
    if !(Scalar.int n).lt enough then (n, found)
    else
      let next := if atLimit limit (path.length - 1) then []
        else (g.callees (path.getLastD .null)).filter fun c => !path.contains c
      match next with
      | [] => (n + 1, path :: found)
      | next =>
        next.foldl (fun acc c => g.chainsFrom limit enough fuel (path ++ [c]) acc) (n, found)

/-- The chains of calls from a root without repetition, each as long as it can be within a limit.
If not even one is wanted, the limit is not looked at. -/
def chains (g : CallGraph) (root limit enough : Json) : Except Error (List (List Json)) := do
  let _ ← g.node root
  let enough ← enough.asScalar
  if !(Scalar.int 0).lt enough then return []
  let limit ← limit.asScalar
  return (g.chainsFrom limit enough (g.nodes.size + 1) [root] (0, [])).2.reverse

/-! ## Summaries -/

structure Statistics where
  functions : Nat
  externalFunctions : Nat
  totalNodes : Nat
  totalEdges : Nat
  unresolvedCalls : Nat
  components : Nat
  recursiveComponents : Nat
  selfRecursive : Nat
  recursive : Nat
  roots : Nat
  leaves : Nat
  maxDepth : Option Nat
deriving DecidableEq, Repr, Inhabited

def statistics (g : CallGraph) : Statistics :=
  let components := g.components
  let depths := g.nodes.values.filterMap CallNode.depth
  { functions := (g.nodes.values.filter fun n => !n.isExternal).length
    externalFunctions := (g.nodes.values.filter CallNode.isExternal).length
    totalNodes := g.nodes.size
    totalEdges := g.edges.length
    unresolvedCalls := g.unresolved.length
    components := components.length
    recursiveComponents := (components.filter fun c => 1 < c.length).length
    selfRecursive := (g.nodes.keys.filter g.callsItself).length
    recursive := g.recursiveFunctions.length
    roots := g.roots.length
    leaves := g.leaves.length
    maxDepth := depths.max? }

def text (g : CallGraph) : String := s!"CallGraph(nodes={g.nodes.size}, edges={g.edges.length})"

/-- The graph as a drawing in the DOT language; the names of its nodes have to be texts. -/
def dot (g : CallGraph) (title : Json) : Except Error String := do
  let label := if title.isVoid then [] else ["  label=\"" ++ title.plain ++ "\";"]
  let nodes ← g.nodes.values.mapM fun n =>
    match n.name with
    | .str name =>
      let fill := if n.isExternal then "style=filled, fillcolor=\"#fff3cd\", shape=ellipse"
        else "style=filled, fillcolor=\"#ddeeff\""
      let mark := if n.isRecursive then ", penwidth=2, color=red" else ""
      let name := Text.replaceChar '"' "\\\"" name
      .ok ("  \"" ++ name ++ "\" [label=\"" ++ name ++ "\", " ++ fill ++ mark ++ "];")
    | _ => .error .notRecord
  let edges := g.edges.map fun e =>
    let label := if e.line.isVoid then "" else " [label=\"" ++ e.line.plain ++ "\"]"
    "  \"" ++ e.caller.plain ++ "\" -> \"" ++ e.callee.plain ++ "\"" ++ label ++ ";"
  return Text.join "\n" (["digraph CallGraph \x7b", "  rankdir=TB;"] ++ label
    ++ ["  node [shape=box, fontname=\"Helvetica\", fontsize=10];"] ++ nodes ++ edges ++ ["\x7d"])

/-- The graph in some lines of text; names that are listed have to be texts. -/
def summary (g : CallGraph) : Except Error String := do
  let s := g.statistics
  let external := if s.externalFunctions = 0 then []
    else [s!"  external functions: {s.externalFunctions}"]
  let unresolved ← if g.unresolved.isEmpty then pure []
    else do
      let names ← Json.sorted (g.unresolved.map CallSite.callee).eraseDups
      pure ["  unresolved calls: " ++ (← Json.joined ", " names)]
  let cycles ← g.cycles.mapM fun c => return "  cycle: " ++ (← Json.joined " -> " (c ++ c.take 1))
  let nodes ← g.nodes.values.mapM fun n => do
    let callees ← Json.joined ", " (g.callees n.name)
    let depth := match n.depth with
      | some d => s!" [depth {d}]"
      | none => ""
    return "  " ++ n.name.plain ++ depth ++ ": " ++ (if callees.isEmpty then "-" else callees)
  return Text.join "\n" ([s!"Call graph: {s.functions} functions, {s.totalEdges} call edges"]
    ++ external ++ unresolved ++ cycles ++ nodes)

/-! ## Building

All defined functions become nodes first, so that the order of the declarations does not matter when
the calls are linked.  A function without a body is linked by the list of the functions it calls. -/

def sitesOf (bodies : Table Json Tree) (f : FunctionDecl) : List CallSite :=
  match bodies.get? f.name with
  | some body => body.walk.filterMap fun n => n.callee?.map fun callee =>
      ⟨f.name, callee, n.label.file.orElse f.file, n.label.line⟩
  | none => f.calls.map fun callee => ⟨f.name, callee, f.file, .int 0⟩

/-- The call sites of all defined functions; functions of the same name are together, under the name
of the first that calls something. -/
def allSites (d : Declarations) (bodies : Table Json Tree) : List CallSite :=
  let sites := d.definedFunctions.flatMap (sitesOf bodies)
  ((sites.map CallSite.caller).eraseDups).flatMap fun name =>
    (sites.filter fun s => s.caller == name).map fun s => { s with caller := name }

/-- Adds a node for a called function that the unit only declares.  The entity found first under the
name decides whether it is a function. -/
def addExternal (d : Declarations) (includeExternal : Bool) (g : CallGraph) (name : Json) :
    CallGraph :=
  if g.contains name || !includeExternal then g
  else
    match d.find? name none with
    | some (.function f) => g.addNode name true (Entity.function f).identity
    | _ => g

def nodeName? (g : CallGraph) (name : Json) : Option Json := (g.nodes.get? name).map CallNode.name

def link (d : Declarations) (includeExternal : Bool) (g : CallGraph) (s : CallSite) : CallGraph :=
  let g := addExternal d includeExternal g s.callee
  match g.nodeName? s.caller, g.nodeName? s.callee with
  | some caller, some callee => g.addEdge { s with caller := caller, callee := callee }
  | _, _ => { g with unresolved := g.unresolved ++ [s] }

/-- Whether a call site can be linked: its callee is a key, and its file and line are where the
callee is a node. -/
def isLinkable (g : CallGraph) (s : CallSite) : Bool :=
  s.callee.isKey && (!g.contains s.callee || s.file.isKey && s.line.isKey)

def build (d : Declarations) (bodies : Table Json Tree) (includeExternal : Bool) :
    Except Error CallGraph :=
  let g := d.definedFunctions.foldl (fun (g : CallGraph) f =>
    g.addNode f.name false (Entity.function f).identity) .empty
  let sites := allSites d bodies
  let g := sites.foldl (link d includeExternal) g
  if !sites.all (isLinkable g) then .error .mistyped
  else if g.nodes.keys.any Json.isNaN then .error .exhausted
  else .ok g.markRecursive

def recordRecursion (g : CallGraph) (d : Declarations) : Declarations :=
  g.nodes.values.foldl (fun (d : Declarations) n =>
    d.update n.record fun
      | .function f => .function { f with isRecursive := n.isRecursive }
      | e => e) d

end CallGraph

end Branchwise
