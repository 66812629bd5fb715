import Branchwise.Data.Table

/-!
# Directed graphs

A directed graph lists its nodes and, for some keys, their successors in order; equal nodes are one
node.  Cycles, components and the order of discovery are read off a depth-first search.  Every
search is bounded by the number of nodes and arcs, which no run exceeds.
-/

namespace Branchwise

structure Digraph (α : Type) where
  nodes : List α
  next : Table α (List α)
deriving Repr, Inhabited

namespace Digraph

variable {α : Type} [BEq α]

def succ (g : Digraph α) (a : α) : List α := (g.next.get? a).getD []

def arcCount (g : Digraph α) : Nat := (g.next.values.map List.length).foldr (· + ·) 0

def bound (g : Digraph α) : Nat := g.nodes.length + g.arcCount + 1

/-! ## Reachability -/

/-- Takes nodes from a queue, and appends the successors of those not seen before. -/
def reachLoop (g : Digraph α) : Nat → List α → List α → List α
  | 0, _, seen => seen
  | _ + 1, [], seen => seen
  | fuel + 1, a :: queue, seen =>
    if seen.contains a then g.reachLoop fuel queue seen
    else g.reachLoop fuel (queue ++ g.succ a) (seen ++ [a])

/-- Everything that can be reached from some nodes, these included, breadth first. -/
def reachAll (g : Digraph α) (starts : List α) : List α :=
  g.reachLoop (starts.length + g.arcCount + 1) starts []

def reachable (g : Digraph α) (a : α) : List α := g.reachAll (g.succ a)

/-! ## Strongly connected components -/

structure ComponentSearch (α : Type) where
  index : Table α Nat
  /-- The entered nodes that belong to no finished component, the last first. -/
  stack : List α
  components : List (List α)
deriving Repr, Inhabited

namespace ComponentSearch

def start : ComponentSearch α := ⟨.empty, [], []⟩

def enter (s : ComponentSearch α) (a : α) : ComponentSearch α :=
  { s with index := s.index.put a s.index.size, stack := a :: s.stack }

def finish (s : ComponentSearch α) (a : α) : ComponentSearch α :=
  { s with
    stack := (s.stack.dropWhile fun b => !(b == a)).tail
    components := s.components ++ [(s.stack.takeWhile fun b => !(b == a)) ++ [a]] }

/-- Looks at a successor of a node.  One that is not yet entered is visited; one that is on the
stack is known to be reached. -/
def look (visit : α → ComponentSearch α → Nat × ComponentSearch α)
    (acc : Nat × ComponentSearch α) (b : α) : Nat × ComponentSearch α :=
  match acc.2.index.get? b with
  | none =>
    let (low, s) := visit b acc.2
    (min acc.1 low, s)
  | some n => if acc.2.stack.contains b then (min acc.1 n, acc.2) else acc

/-- Enters a node and everything below it that is not yet entered.  The number returned is the least
number on the stack that is known to be reached from the node. -/
def visit (succ : α → List α) : Nat → α → ComponentSearch α → Nat × ComponentSearch α
  | 0, _, s => (s.index.size, s)
  | fuel + 1, a, s =>
    let number := s.index.size
    let (low, s) := (succ a).foldl (look (visit succ fuel)) (number, s.enter a)
    if low = number then (low, s.finish a) else (low, s)

def run (succ : α → List α) (fuel : Nat) (nodes : List α) : ComponentSearch α :=
  nodes.foldl (fun s a => if s.index.contains a then s else (visit succ fuel a s).2) .start

end ComponentSearch

def componentSearch (g : Digraph α) : ComponentSearch α :=
  .run g.succ g.bound g.nodes

/-- The strongly connected components of what the listed nodes reach.  A component comes after those
it leads to, and lists its nodes from the last entered to the first. -/
def components (g : Digraph α) : List (List α) := g.componentSearch.components

/-- What the listed nodes reach, in the order in which a depth-first search enters it. -/
def discovered (g : Digraph α) : List α := g.componentSearch.index.keys

/-- All nodes, each after those it leads to unless they lead back to it. -/
def order (g : Digraph α) : List α := g.components.flatten

/-! ## Cycles -/

structure CycleSearch (α : Type) where
  done : List α
  found : List (List α)
deriving Repr, Inhabited

def smallest : List String → String
  | [] => ""
  | a :: as => as.foldl (fun m b => if b < m then b else m) a

/-- A cycle turned so that it starts at the first node with the smallest text. -/
def canonicalCycle (shown : α → String) (cycle : List α) : List α :=
  let pivot := smallest (cycle.map shown)
  cycle.dropWhile (fun a => shown a ≠ pivot) ++ cycle.takeWhile fun a => shown a ≠ pivot

def CycleSearch.record (shown : α → String) (s : CycleSearch α) (cycle : List α) : CycleSearch α :=
  let cycle := canonicalCycle shown cycle
  if s.found.contains cycle then s else { s with found := s.found ++ [cycle] }

/-- Goes below a node that ends a path.  A successor on the path closes a cycle. -/
def visitCycles (shown : α → String) (g : Digraph α) :
    Nat → List α → α → CycleSearch α → CycleSearch α
  | 0, _, _, s => s
  | fuel + 1, path, a, s =>
    let path := path ++ [a]
    let s := (g.succ a).foldl (fun (s : CycleSearch α) b =>
      if path.contains b then s.record shown (path.dropWhile fun c => !(c == b))
      else if s.done.contains b then s
      else g.visitCycles shown fuel path b s) s
    { s with done := a :: s.done }

/-- The cycles that a depth-first search closes, each once, from the node with the smallest text
on. -/
def cycles (shown : α → String) (g : Digraph α) : List (List α) :=
  (g.nodes.foldl (fun (s : CycleSearch α) a =>
    if s.done.contains a then s else g.visitCycles shown g.bound [] a s) ⟨[], []⟩).found

end Digraph

end Branchwise
