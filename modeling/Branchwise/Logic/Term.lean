import Branchwise.CType.Base

/-!
# Terms

Terms over integers, exact reals and truth values.  The quotient of two integers is found by
Euclidean division, whose remainder is never negative, of the dividend without its sign.  What a
division by zero gives is part of a valuation, as a function of the dividend.
-/

namespace Branchwise

abbrev TermSort.Carrier : TermSort → Type
  | int => Int
  | real => Rat
  | bool => Bool

/-- The operations on the numbers of one sort that are always defined. -/
inductive ArithOp where
  | add
  | sub
  | mul
deriving DecidableEq, Repr, Inhabited

inductive Comparison where
  | eq
  | ne
  | lt
  | le
  | gt
  | ge
deriving DecidableEq, Repr, Inhabited

namespace Comparison

def negate : Comparison → Comparison
  | eq => ne
  | ne => eq
  | lt => ge
  | le => gt
  | gt => le
  | ge => lt

def onInt : Comparison → Int → Int → Bool
  | eq, a, b => a == b
  | ne, a, b => a != b
  | lt, a, b => a < b
  | le, a, b => a ≤ b
  | gt, a, b => b < a
  | ge, a, b => b ≤ a

def onRat : Comparison → Rat → Rat → Bool
  | eq, a, b => a == b
  | ne, a, b => a != b
  | lt, a, b => a < b
  | le, a, b => a ≤ b
  | gt, a, b => b < a
  | ge, a, b => b ≤ a

end Comparison

inductive Term : TermSort → Type where
  | var (s : TermSort) (x : String) : Term s
  | int (n : Int) : Term .int
  | real (q : Rat) : Term .real
  | bool (b : Bool) : Term .bool
  | toReal (t : Term .int) : Term .real
  | ite {s : TermSort} (c : Term .bool) (t e : Term s) : Term s
  | negInt (t : Term .int) : Term .int
  | negReal (t : Term .real) : Term .real
  | intOp (op : ArithOp) (a b : Term .int) : Term .int
  | realOp (op : ArithOp) (a b : Term .real) : Term .real
  | quot (a b : Term .int) : Term .int
  | rem (a b : Term .int) : Term .int
  | ratio (a b : Term .real) : Term .real
  | intRel (r : Comparison) (a b : Term .int) : Term .bool
  | realRel (r : Comparison) (a b : Term .real) : Term .bool
  | not (t : Term .bool) : Term .bool
  | and (a b : Term .bool) : Term .bool
  | or (a b : Term .bool) : Term .bool
  | implies (a b : Term .bool) : Term .bool
  | iff (a b : Term .bool) : Term .bool

/-- Values for all variables, and for all divisions by zero. -/
structure Valuation where
  int : String → Int
  real : String → Rat
  bool : String → Bool
  intByZero : Int → Int
  realByZero : Rat → Rat

namespace Valuation

def get (v : Valuation) : (s : TermSort) → String → s.Carrier
  | .int, x => v.int x
  | .real, x => v.real x
  | .bool, x => v.bool x

/-- The value of a variable as a number; a truth value is one or zero. -/
def number (v : Valuation) : TermSort → String → Rat
  | .int, x => (v.int x : Rat)
  | .real, x => v.real x
  | .bool, x => if v.bool x then 1 else 0

def zero : Valuation := ⟨fun _ => 0, fun _ => 0, fun _ => false, fun _ => 0, fun _ => 0⟩

end Valuation

namespace ArithOp

def onInt : ArithOp → Int → Int → Int
  | add, a, b => a + b
  | sub, a, b => a - b
  | mul, a, b => a * b

def onRat : ArithOp → Rat → Rat → Rat
  | add, a, b => a + b
  | sub, a, b => a - b
  | mul, a, b => a * b

end ArithOp

namespace Valuation

def euclid (v : Valuation) (a b : Int) : Int := if b = 0 then v.intByZero a else Int.ediv a b

/-- The quotient of two integers, by Euclidean division of the dividend without its sign. -/
def quot (v : Valuation) (a b : Int) : Int := if 0 ≤ a then v.euclid a b else -(v.euclid (-a) b)

def rem (v : Valuation) (a b : Int) : Int := a - b * v.quot a b

def ratio (v : Valuation) (a b : Rat) : Rat := if b = 0 then v.realByZero a else a / b

end Valuation

namespace Term

def eval (v : Valuation) : {s : TermSort} → Term s → s.Carrier
  | s, var _ x => v.get s x
  | _, int n => n
  | _, real q => q
  | _, bool b => b
  | _, toReal t => ((t.eval v : Int) : Rat)
  | _, ite c t e => if c.eval v then t.eval v else e.eval v
  | _, negInt t => Int.neg (t.eval v)
  | _, negReal t => Rat.neg (t.eval v)
  | _, intOp op a b => op.onInt (a.eval v) (b.eval v)
  | _, realOp op a b => op.onRat (a.eval v) (b.eval v)
  | _, quot a b => v.quot (a.eval v) (b.eval v)
  | _, rem a b => v.rem (a.eval v) (b.eval v)
  | _, ratio a b => v.ratio (a.eval v) (b.eval v)
  | _, intRel r a b => r.onInt (a.eval v) (b.eval v)
  | _, realRel r a b => r.onRat (a.eval v) (b.eval v)
  | _, not t => !(t.eval v)
  | _, and a b => a.eval v && b.eval v
  | _, or a b => a.eval v || b.eval v
  | _, implies a b => !(a.eval v) || b.eval v
  | _, iff a b => (a.eval v : Bool) == b.eval v

def size : {s : TermSort} → Term s → Nat
  | _, var _ _ => 1
  | _, int _ => 1
  | _, real _ => 1
  | _, bool _ => 1
  | _, toReal t => t.size + 1
  | _, ite c t e => c.size + t.size + e.size + 1
  | _, negInt t => t.size + 1
  | _, negReal t => t.size + 1
  | _, intOp _ a b => a.size + b.size + 1
  | _, realOp _ a b => a.size + b.size + 1
  | _, quot a b => a.size + b.size + 1
  | _, rem a b => a.size + b.size + 1
  | _, ratio a b => a.size + b.size + 1
  | _, intRel _ a b => a.size + b.size + 1
  | _, realRel _ a b => a.size + b.size + 1
  | _, not t => t.size + 1
  | _, and a b => a.size + b.size + 1
  | _, or a b => a.size + b.size + 1
  | _, implies a b => a.size + b.size + 1
  | _, iff a b => a.size + b.size + 1

def all : List (Term .bool) → Term .bool
  | [] => bool true
  | [t] => t
  | t :: ts => and t (all ts)

def any : List (Term .bool) → Term .bool
  | [] => bool false
  | [t] => t
  | t :: ts => or t (any ts)

end Term

inductive AnyTerm where
  | int (t : Term .int)
  | real (t : Term .real)
  | bool (t : Term .bool)

namespace AnyTerm

def var : TermSort → String → AnyTerm
  | .int, x => int (.var .int x)
  | .real, x => real (.var .real x)
  | .bool, x => bool (.var .bool x)

def asBool : AnyTerm → Term .bool
  | int t => .intRel .ne t (.int 0)
  | real t => .realRel .ne t (.real 0)
  | bool t => t

def asNumber : AnyTerm → AnyTerm
  | bool t => int (.ite t (.int 1) (.int 0))
  | t => t

def asReal : AnyTerm → Term .real
  | int t => .toReal t
  | real t => t
  | bool t => .toReal (.ite t (.int 1) (.int 0))

end AnyTerm

inductive NumberPair where
  | int (a b : Term .int)
  | real (a b : Term .real)

/-- Brings two terms to one numeric sort: to integers if both are, and to reals otherwise. -/
def AnyTerm.promote (a b : AnyTerm) : NumberPair :=
  match a.asNumber, b.asNumber with
  | .int a, .int b => .int a b
  | a, b => .real a.asReal b.asReal

namespace NumberPair

def compare (r : Comparison) : NumberPair → Term .bool
  | int a b => .intRel r a b
  | real a b => .realRel r a b

def combine (op : ArithOp) : NumberPair → AnyTerm
  | int a b => .int (.intOp op a b)
  | real a b => .real (.realOp op a b)

end NumberPair

end Branchwise
