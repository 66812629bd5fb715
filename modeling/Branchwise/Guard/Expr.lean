import Branchwise.Number.Scalar

/-!
# Guard expressions

The conditions of branches and loops: names, literals, and the logical, relational and arithmetic
operators of C.  A member or index path such as `p->len` is one name.  The text of an expression has
parentheses around every binary operation.
-/

namespace Branchwise

inductive UnaryOp where
  | not
  | neg
deriving DecidableEq, Repr, Inhabited

inductive BinaryOp where
  | or
  | and
  | eq
  | ne
  | le
  | ge
  | lt
  | gt
  | add
  | sub
  | mul
  | div
  | rem
deriving DecidableEq, Repr, Inhabited

namespace UnaryOp

def symbol : UnaryOp → String
  | not => "!"
  | neg => "-"

end UnaryOp

namespace BinaryOp

def symbol : BinaryOp → String
  | or => "||"
  | and => "&&"
  | eq => "=="
  | ne => "!="
  | le => "<="
  | ge => ">="
  | lt => "<"
  | gt => ">"
  | add => "+"
  | sub => "-"
  | mul => "*"
  | div => "/"
  | rem => "%"

def isRelational : BinaryOp → Bool
  | eq | ne | le | ge | lt | gt => true
  | _ => false

def flip : BinaryOp → BinaryOp
  | lt => gt
  | le => ge
  | gt => lt
  | ge => le
  | op => op

end BinaryOp

inductive Expr where
  | name (x : String)
  | int (n : Int)
  | real (x : Binary64)
  | bool (b : Bool)
  | unary (op : UnaryOp) (e : Expr)
  | binary (op : BinaryOp) (l r : Expr)
deriving DecidableEq, Repr, Inhabited

namespace Expr

/-- The text of an expression, with parentheses around every binary operation. -/
def text : Expr → String
  | name x => x
  | int n => toString n
  | real x => x.text
  | bool b => if b then "true" else "false"
  | unary op e => op.symbol ++ e.text
  | binary op l r => "(" ++ l.text ++ " " ++ op.symbol ++ " " ++ r.text ++ ")"

/-- The expression and its parts, each before its own parts, from left to right. -/
def walk : Expr → List Expr
  | unary op e => unary op e :: e.walk
  | binary op l r => binary op l r :: (l.walk ++ r.walk)
  | e => [e]

def freeNames (e : Expr) : List String :=
  (e.walk.filterMap fun | name x => some x | _ => none).eraseDups

def isWritable (e : Expr) : Bool := e.walk.all fun
  | int n => Number.isWritable n
  | _ => true

def constant? : Expr → Option Scalar
  | int n => some (.int n)
  | real x => some (.real x)
  | bool b => some (.int (if b then 1 else 0))
  | _ => none

def conjuncts : Expr → List Expr
  | binary .and l r => l.conjuncts ++ r.conjuncts
  | e => [e]

/-- The bound that a single comparison with a literal places on a name. -/
def comparison? (x : String) : Expr → Option (BinaryOp × Scalar)
  | binary op l r =>
    if op.isRelational then
      let (l, r, op) := if r = name x then (r, l, op.flip) else (l, r, op)
      if l = name x then r.constant?.map (op, ·) else none
    else none
  | _ => none

/-- The bounds on a name that hold whenever the expression does: its comparisons with literals in
the outermost conjunction, written with the name on the left. -/
def comparisonsOn (e : Expr) (x : String) : List (BinaryOp × Scalar) :=
  e.conjuncts.filterMap (comparison? x)

end Expr

/-! ## Faults of guard texts -/

inductive GuardFault where
  | empty
  | syntaxAt (column : Nat)
  | notInteger (base : Nat) (digits : String)
  /-- A floating literal holds a digit without a value; the number is the literal without its
  suffix. -/
  | notReal (number literal : String)
  | tooLong (digits : Nat)
  /-- A character literal has an unknown escape; the text is what stands between its quotes. -/
  | unknownEscape (body : String)
  | floatingRemainder
  | unboundNames (names : List String)
  | divisionByZero
deriving DecidableEq, Repr, Inhabited

namespace GuardFault

/-- The greatest number of characters that a refused literal is shown with, quotes included. -/
def shownLength : Nat := 200

def reason : GuardFault → String
  | empty => "empty expression"
  | syntaxAt column => s!"syntax error at column {column}"
  | notInteger base digits =>
    s!"invalid literal for int() with base {base}: " ++
      String.ofList ((Text.quote digits).toList.take shownLength)
  | notReal number literal =>
    "ValueError: could not convert string to float: " ++ Text.quote number ++
      "\n\nParse tree:\n<RegexNode called \"float_lit\" matching \"" ++ literal ++
      "\">  <-- *** We were here. ***"
  | tooLong digits =>
    "Exceeds the limit (4300 digits) for integer string conversion: " ++
      s!"value has {digits} digits; " ++ "use sys.set_int_max_str_digits() to increase the limit"
  | unknownEscape body => "unknown escape " ++ Text.quote body
  | floatingRemainder => "'%' on a floating operand"
  | unboundNames names => "unbound names: " ++ Text.join ", " names
  | divisionByZero => "division by zero"

end GuardFault

structure GuardError where
  text : String
  fault : GuardFault
deriving DecidableEq, Repr, Inhabited

namespace GuardError

def message (e : GuardError) : String :=
  "cannot lower " ++ Text.quote e.text ++ ": " ++ e.fault.reason

end GuardError

end Branchwise
