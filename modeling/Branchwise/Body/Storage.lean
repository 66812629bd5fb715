import Branchwise.Body.Tree

/-!
# Stored statement trees

A node is stored as an object with its children in a list.  A node without a file has that of its
parent.  All children of a node are read before anything below them, and what is below them is read
from the last child to the first, which decides the error of a tree with several faults.
-/

namespace Branchwise

namespace Label

def kindOf (j : Json) : Decoder NodeKind :=
  match j, (j.field? "kind").bind fun k => NodeKind.ofName? k.textOrEmpty with
  | .obj _, some kind => .ok kind
  | .obj _, none => .error (.model (.nodeKind j.display))
  | _, _ => .error .mistyped

def ofJson (file : Json) (j : Json) : Decoder Label := do
  return {
    kind := ← kindOf j
    text := ← j.fieldOr "text" (.str "")
    line := ← j.fieldOr "line" (.int 0)
    file := ← j.fieldOr "file" file
    condition := ← j.fieldOr "condition" .null
    callee := ← j.fieldOr "callee" .null
    name := ← j.fieldOr "name" .null
    type := ← j.fieldOr "type" .null
    value := match ← j.fieldOr "value" .null with
      | .null => .null
      | v => .str v.plain }

end Label

namespace Tree

def readBelow : Nat → Label → Json → Decoder Tree
  | 0, label, _ => .ok (.node label [])
  | fuel + 1, label, j => do
    let items ← (← j.fieldOr "children" (.arr [])).elements
    let labels ← items.mapM (Label.ofJson label.file)
    let trees ← (labels.zip items).reverse.mapM fun (l, c) => readBelow fuel l c
    return .node label trees.reverse

def ofJson (file : Json) (j : Json) : Decoder Tree := do
  readBelow (j.depth + 1) (← Label.ofJson file j) j

end Tree

end Branchwise
