import Branchwise.Body.Tree
import Branchwise.Graph.Digraph

/-!
# Flow graphs

The nodes of a flow graph are the statements of a function and the points between them; the number
of a node is its place in the list.  A decision leads to one arm for each of its outcomes.
-/

namespace Branchwise

inductive FlowNodeKind where
  | entry
  | exit
  | statement
  | decision
  | arm
  | join
  | label
  | loopEntry
  | loopExit
  | forStep
  | switchExit
deriving DecidableEq, Repr, Inhabited

def FlowNodeKind.name : FlowNodeKind → String
  | entry => "entry"
  | exit => "exit"
  | statement => "statement"
  | decision => "decision"
  | arm => "arm"
  | join => "join"
  | label => "label"
  | loopEntry => "loop-entry"
  | loopExit => "loop-exit"
  | forStep => "for-step"
  | switchExit => "switch-exit"

inductive FlowEdgeKind where
  | fallThrough
  | branchTrue
  | branchFalse
  | backEdge
  | breakJump
  | continueJump
  | returnJump
  | gotoJump
  | switchCase
  | switchDefault
deriving DecidableEq, Repr, Inhabited

def FlowEdgeKind.name : FlowEdgeKind → String
  | fallThrough => "fall-through"
  | branchTrue => "branch-true"
  | branchFalse => "branch-false"
  | backEdge => "back-edge"
  | breakJump => "break"
  | continueJump => "continue"
  | returnJump => "return"
  | gotoJump => "goto"
  | switchCase => "switch-case"
  | switchDefault => "switch-default"

structure FlowNode where
  id : Nat
  kind : FlowNodeKind
  /-- The kind of the statement that the node stands for; a point between statements has none. -/
  source : Option NodeKind
  line : Json
  text : Json
  branch : Option Nat
  loopExit : Option Nat
deriving Repr, Inhabited

structure FlowEdge where
  src : Nat
  dst : Nat
  kind : FlowEdgeKind
  label : Option String
deriving DecidableEq, Repr, Inhabited

structure FlowGraph where
  function : Json
  nodes : List FlowNode
  edges : List FlowEdge
deriving Repr, Inhabited

namespace FlowNode

def isSynthetic (n : FlowNode) : Bool := n.source.isNone

def label (n : FlowNode) : Json :=
  if n.text.isVoid then .str ("[" ++ n.kind.name ++ "]")
  else if n.line.isVoid then n.text
  else .str ("L" ++ n.line.plain ++ ": " ++ n.text.plain)

def describe (n : FlowNode) : String :=
  s!"CFGNode(id={n.id}, kind=" ++ Text.quote n.kind.name ++ ", line=" ++ n.line.plain ++ ")"

end FlowNode

def FlowEdge.describe (e : FlowEdge) : String :=
  s!"CFGEdge(N{e.src} -> N{e.dst}, kind=" ++ Text.quote e.kind.name ++ ")"

namespace FlowGraph

def entry : Nat := 0

def exit : Nat := 1

def empty (function : Json) : FlowGraph where
  function := function
  nodes := [⟨entry, .entry, none, .int 0, .str "", none, none⟩,
    ⟨exit, .exit, none, .int 0, .str "", none, none⟩]
  edges := []

def node? (g : FlowGraph) (id : Nat) : Option FlowNode := g.nodes[id]?

def outEdges (g : FlowGraph) (id : Nat) : List FlowEdge := g.edges.filter fun e => e.src = id

def inEdges (g : FlowGraph) (id : Nat) : List FlowEdge := g.edges.filter fun e => e.dst = id

def successors (g : FlowGraph) (id : Nat) : List Nat := (g.outEdges id).map FlowEdge.dst

def predecessors (g : FlowGraph) (id : Nat) : List Nat := (g.inEdges id).map FlowEdge.src

def digraph (g : FlowGraph) : Digraph Nat :=
  let ids := g.nodes.map FlowNode.id
  ⟨ids, ⟨ids.map fun id => (id, g.successors id)⟩⟩

def reachable (g : FlowGraph) : List Nat := g.digraph.reachAll [entry]

def unreachable (g : FlowGraph) : List FlowNode :=
  let reached := g.reachable
  g.nodes.filter fun n => !reached.contains n.id && !n.isSynthetic

def decisions (g : FlowGraph) : List FlowNode := g.nodes.filter fun n => n.kind = .decision

def backEdges (g : FlowGraph) : List FlowEdge := g.edges.filter fun e => e.kind = .backEdge

def describe (g : FlowGraph) : String :=
  "CFG(function=" ++ g.function.display
    ++ s!", nodes={g.nodes.length}, edges={g.edges.length})"

/-! ## Drawings -/

def nodeStyle : FlowNodeKind → String
  | .entry => ", style=filled, fillcolor=\"#ccffcc\""
  | .exit => ", style=filled, fillcolor=\"#ffcccc\""
  | .decision => ", shape=diamond"
  | .arm => ", shape=point"
  | _ => ""

def edgeStyle : FlowEdgeKind → String
  | .branchTrue => ", color=green, fontcolor=green"
  | .branchFalse => ", color=red, fontcolor=red"
  | .backEdge => ", style=dashed, color=blue, fontcolor=blue"
  | .breakJump | .continueJump | .gotoJump => ", style=dotted"
  | _ => ""

/-- The graph as a drawing in the DOT language; the title is the function unless another is given.
The labels of the nodes have to be texts. -/
def dot (g : FlowGraph) (title : Json) : Except Error String := do
  let nodes ← g.nodes.mapM fun n =>
    match n.label with
    | .str label =>
      let label := Text.replaceChar '\n' "\\n" (Text.replaceChar '"' "\\\"" label)
      .ok (s!"  N{n.id} [label=\"" ++ label ++ "\"" ++ nodeStyle n.kind ++ "];")
    | _ => .error .notRecord
  let edges := g.edges.map fun e =>
    let label := match e.label.filter fun value => !value.isEmpty with
      | some value => e.kind.name ++ ": " ++ value
      | none => e.kind.name
    s!"  N{e.src} -> N{e.dst} [label=\"" ++ label ++ "\"" ++ edgeStyle e.kind ++ "];"
  return Text.join "\n" (["digraph CFG \x7b",
      "  label=\"" ++ (title.orElse g.function).plain ++ "\";",
      "  node [shape=box, fontname=monospace, fontsize=10];"] ++ nodes ++ edges ++ ["\x7d"])

end FlowGraph

end Branchwise
