import Branchwise.Number.Decimal

/-!
# Scalars

The constants of guards, domains and symbol tables: truth values, integers and binary numbers.  They
are compared by exact numeric value, a truth value counting as one or zero.  A number that is no
number is neither equal to, below nor above any scalar.
-/

namespace Branchwise

inductive Scalar where
  | bool (b : Bool)
  | int (n : Int)
  | real (x : Binary64)
deriving DecidableEq, Repr, Inhabited

/-- The exact numeric value of a scalar on the extended line; `none` for no number. -/
inductive Extended where
  | negInf
  | fin (r : Rat)
  | posInf
deriving DecidableEq, Repr, Inhabited

namespace Extended

def lt : Extended → Extended → Bool
  | negInf, negInf => false
  | negInf, _ => true
  | fin _, negInf => false
  | fin a, fin b => a < b
  | fin _, posInf => true
  | posInf, _ => false

def le (a b : Extended) : Bool := !lt b a

end Extended

namespace Scalar

def value? : Scalar → Option Extended
  | bool b => some (.fin (if b then 1 else 0))
  | int n => some (.fin n)
  | real (.nan _) => none
  | real (.infinite negative) => some (if negative then .negInf else .posInf)
  | real (.finite negative m e) =>
    some (.fin ((if negative then -(m : Rat) else (m : Rat)) * Binary64.pow2 e))

def eq (a b : Scalar) : Bool :=
  match a.value?, b.value? with
  | some x, some y => x = y
  | _, _ => false

/-- Whether two scalars count as one key: they are equal, or one and the same. -/
def same : Scalar → Scalar → Bool
  | real (.nan s), real (.nan t) => s = t
  | a, b => a.eq b

def lt (a b : Scalar) : Bool :=
  match a.value?, b.value? with
  | some x, some y => x.lt y
  | _, _ => false

def le (a b : Scalar) : Bool :=
  match a.value?, b.value? with
  | some x, some y => x.le y
  | _, _ => false

def isNaN : Scalar → Bool
  | real x => x.isNaN
  | _ => false

def max (a b : Scalar) : Scalar := if a.lt b then b else a

def min (a b : Scalar) : Scalar := if b.lt a then b else a

def isTruthy : Scalar → Bool
  | bool b => b
  | int n => n != 0
  | real (.finite _ m _) => m != 0
  | real _ => true

def text : Scalar → String
  | bool b => if b then "True" else "False"
  | int n => toString n
  | real x => x.text

def int? : Scalar → Option Int
  | bool b => some (if b then 1 else 0)
  | int n => some n
  | real _ => none

end Scalar

/-! ## Arithmetic

Sums, differences, products and whole quotients.  Integers and truth values are counted exactly;
with a binary number the result is the binary number nearest to the exact one. -/

namespace Binary64

def nearest (r : Rat) : Binary64 := ofRat r (r < 0)

def add (x y : Binary64) : Binary64 :=
  match x, y with
  | nan tag, _ | _, nan tag => nan tag
  | infinite s, infinite t => if s = t then infinite s else nan 0
  | infinite s, _ | _, infinite s => infinite s
  | finite s m e, finite t n f =>
    let sum := (if s then -(m : Rat) else (m : Rat)) * pow2 e
      + (if t then -(n : Rat) else (n : Rat)) * pow2 f
    if sum = 0 then zero (s && t) else nearest sum

def sub (x y : Binary64) : Binary64 := x.add y.neg

def isZero : Binary64 → Bool
  | finite _ m _ => m = 0
  | _ => false

def mul (x y : Binary64) : Binary64 :=
  let negative := x.isNegative != y.isNegative
  match x.toRat?, y.toRat? with
  | some a, some b => ofRat (a * b) negative
  | _, _ => if x.isNaN || y.isNaN || x.isZero || y.isZero then nan 0 else infinite negative

def div (x y : Binary64) : Binary64 :=
  let negative := x.isNegative != y.isNegative
  match x.toRat?, y.toRat? with
  | some a, some b => ofRat (a / b) negative
  | some _, none => if y.isNaN then nan 0 else zero negative
  | none, some _ => if x.isNaN then nan 0 else infinite negative
  | none, none => nan 0

/-- What is left of a number after a whole multiple of another, which is not zero, with the sign of
the first. -/
def remainder (x y : Binary64) : Binary64 :=
  match x.toRat?, y.toRat? with
  | some a, some b =>
    let q := a / b
    ofRat (a - (if q < 0 then q.ceil else q.floor) * b) x.isNegative
  | some _, none => if y.isNaN then nan 0 else x
  | none, _ => nan 0

def floor (x : Binary64) : Binary64 :=
  match x.toRat? with
  | some r => ofRat r.floor x.isNegative
  | none => x

/-- The whole quotient by a number that is not zero, rounded down: the rounded quotient of what a
remainder leaves, taken to the nearest whole number. -/
def floorDiv (x y : Binary64) : Binary64 :=
  let rest := x.remainder y
  let quotient := (x.sub rest).div y
  let quotient :=
    if !rest.isZero && y.isNegative != rest.isNegative then quotient.sub (nearest 1) else quotient
  if quotient.isZero then zero (x.div y).isNegative
  else
    let whole := quotient.floor
    match (quotient.sub whole).toRat? with
    | some r => if 1 / 2 < r then whole.add (nearest 1) else whole
    | none => whole

def toFloat : Binary64 → Float
  | finite negative m e =>
    let size := (Float.ofNat m).scaleB e
    if negative then -size else size
  | infinite negative => if negative then -1.0 / 0.0 else 1.0 / 0.0
  | nan _ => 0.0 / 0.0

end Binary64

namespace Scalar

/-- A scalar as a binary number; `none` for an integer that is too large for one. -/
def toReal? : Scalar → Option Binary64
  | real x => some x
  | bool b => some (.nearest (if b then 1 else 0))
  | int n =>
    let x := Binary64.nearest n
    if x.isFinite then some x else none

/-- An operation on two scalars: on integers if both are, and else on binary numbers; `none` if an
integer is too large to be taken for one. -/
def combine? (whole : Int → Int → Int) (binary : Binary64 → Binary64 → Binary64) (a b : Scalar) :
    Option Scalar :=
  match a.int?, b.int? with
  | some m, some n => some (int (whole m n))
  | _, _ => do return real (binary (← a.toReal?) (← b.toReal?))

def add? (a b : Scalar) : Option Scalar := combine? (· + ·) .add a b

def sub? (a b : Scalar) : Option Scalar := combine? (· - ·) .sub a b

def mul? (a b : Scalar) : Option Scalar := combine? (· * ·) .mul a b

def floorDiv? (a b : Scalar) : Option Scalar := combine? Int.fdiv .floorDiv a b

def succ (a : Scalar) : Scalar :=
  match a with
  | real x => real (x.add (.nearest 1))
  | bool b => int (if b then 2 else 1)
  | int n => int (n + 1)

end Scalar

end Branchwise
