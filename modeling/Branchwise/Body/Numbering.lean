import Branchwise.Body.Tree

/-!
# Numbers of nodes

A numbering lists the nodes of a tree under their numbers, each with the number of its parent, so
that the way up is a look-up.
-/

namespace Branchwise

structure NumberedNode where
  tree : Tree
  parent : Option Nat
deriving Repr, Inhabited

structure Numbering where
  nodes : List NumberedNode
deriving Repr, Inhabited

namespace Numbering

/-- Numbers the nodes of a stack, each with its parent's number; the children of a node come before
the rest of the stack. -/
def fill : Nat → List (Tree × Option Nat) → List NumberedNode → List NumberedNode
  | 0, _, nodes => nodes
  | _ + 1, [], nodes => nodes
  | fuel + 1, (t, parent) :: stack, nodes =>
    fill fuel (t.children.map (fun c => (c, some nodes.length)) ++ stack) (nodes ++ [⟨t, parent⟩])

def ofTree (t : Tree) : Numbering := ⟨fill t.size [(t, none)] []⟩

def get? (n : Numbering) (id : Nat) : Option Tree := (n.nodes[id]?).map NumberedNode.tree

def parent? (n : Numbering) (id : Nat) : Option Nat := (n.nodes[id]?).bind NumberedNode.parent

def climb (n : Numbering) : Nat → Nat → List Nat
  | 0, _ => []
  | fuel + 1, id =>
    match n.parent? id with
    | some p => p :: n.climb fuel p
    | none => []

def ancestors (n : Numbering) (id : Nat) : List Nat := n.climb n.nodes.length id

end Numbering

end Branchwise
