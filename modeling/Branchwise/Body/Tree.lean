import Branchwise.Json.Decoder

/-!
# Statement trees

The body of a function is a tree of statements whose conditions are kept as texts.  The number of a
node is its place in pre-order.  What a node says of itself is kept as it was stored.
-/

namespace Branchwise

inductive NodeKind where
  | compound
  | ifElse
  | whileLoop
  | doLoop
  | forLoop
  | switch
  | case
  | default
  | break
  | continue
  | return
  | goto
  | label
  | call
  | declaration
  | expression
  | ternary
deriving DecidableEq, Repr, Inhabited

namespace NodeKind

def all : List NodeKind := [compound, ifElse, whileLoop, doLoop, forLoop, switch, case, default,
  .break, .continue, .return, goto, label, call, declaration, expression, ternary]

def name : NodeKind → String
  | compound => "compound"
  | ifElse => "if"
  | whileLoop => "while"
  | doLoop => "do"
  | forLoop => "for"
  | switch => "switch"
  | case => "case"
  | default => "default"
  | .break => "break"
  | .continue => "continue"
  | .return => "return"
  | goto => "goto"
  | label => "label"
  | call => "call"
  | declaration => "declaration"
  | expression => "expression"
  | ternary => "ternary"

def ofName? (s : String) : Option NodeKind := all.find? fun k => k.name = s

def isDecision : NodeKind → Bool
  | ifElse | whileLoop | doLoop | forLoop | case | ternary => true
  | _ => false

def isLoop : NodeKind → Bool
  | whileLoop | doLoop | forLoop => true
  | _ => false

def isStatement : NodeKind → Bool
  | call | ternary => false
  | _ => true

end NodeKind

structure Label where
  kind : NodeKind
  text : Json
  line : Json
  file : Json
  condition : Json
  callee : Json
  name : Json
  type : Json
  value : Json
deriving Repr, Inhabited

namespace Label

def isDecision (l : Label) : Bool := l.kind.isDecision

def isStatement (l : Label) : Bool := l.kind.isStatement

def describe (l : Label) : String :=
  let detail := l.condition.orElse (l.callee.orElse (l.name.orElse l.text))
  "AstNode(" ++ l.kind.name ++ ", " ++ detail.display ++ ", line=" ++ l.line.plain ++ ")"

end Label

inductive Tree where
  | node (label : Label) (children : List Tree)
deriving Repr, Inhabited

namespace Tree

def label : Tree → Label
  | node l _ => l

def children : Tree → List Tree
  | node _ ts => ts

def kind (t : Tree) : NodeKind := t.label.kind

mutual

def walkOnto : Tree → List Tree → List Tree
  | node l ts, rest => node l ts :: walkAllOnto ts rest

def walkAllOnto : List Tree → List Tree → List Tree
  | [], rest => rest
  | t :: ts, rest => t.walkOnto (walkAllOnto ts rest)

end

def walk (t : Tree) : List Tree := t.walkOnto []

mutual

theorem walkOnto_eq (t : Tree) (rest : List Tree) : t.walkOnto rest = t.walk ++ rest :=
  match t with
  | node l ts => by
    simp only [walk, walkOnto, walkAllOnto_eq ts, List.cons_append, List.append_nil]

theorem walkAllOnto_eq (ts rest : List Tree) : walkAllOnto ts rest = ts.flatMap walk ++ rest :=
  match ts with
  | [] => by simp only [walkAllOnto, List.flatMap_nil, List.nil_append]
  | t :: ts => by
    simp only [walkAllOnto, walkOnto_eq t, walkAllOnto_eq ts, List.flatMap_cons,
      List.append_assoc]

end

theorem walk_node (l : Label) (ts : List Tree) :
    (node l ts).walk = node l ts :: ts.flatMap walk := by
  simp only [walk, walkOnto, walkAllOnto_eq, List.append_nil]

mutual

def size : Tree → Nat
  | node _ ts => sizeAll ts + 1

def sizeAll : List Tree → Nat
  | [] => 0
  | t :: ts => t.size + sizeAll ts

end

def collect (t : Tree) (kind : NodeKind) : List Tree := t.walk.filter fun n => n.kind = kind

def decisionCount (t : Tree) : Nat := (t.walk.filter fun n => n.label.isDecision).length

def callee? (t : Tree) : Option Json :=
  if t.kind = .call && !t.label.callee.isVoid then some t.label.callee else none

/-- The names of the called functions, each once, in the order of the text. -/
def calledNames (t : Tree) : Except Error (List Json) :=
  return (← (t.walk.filterMap callee?).mapM Json.asKey).eraseDups

end Tree

end Branchwise
