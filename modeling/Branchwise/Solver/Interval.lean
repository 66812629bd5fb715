/-!
# Intervals

Intervals of rationals with ends that may be missing and may be left out.
-/

namespace Branchwise

def greaterOf (p q : Rat) : Rat := if p ≤ q then q else p

def lesserOf (p q : Rat) : Rat := if p ≤ q then p else q

/-- The end of an interval; a strict one does not belong to it. -/
structure Limit where
  value : Rat
  strict : Bool
deriving DecidableEq, Repr, Inhabited

structure Interval where
  lo : Option Limit
  hi : Option Limit
deriving DecidableEq, Repr, Inhabited

namespace Interval

def full : Interval := ⟨none, none⟩

def point (q : Rat) : Interval := ⟨some ⟨q, false⟩, some ⟨q, false⟩⟩

def higher : Option Limit → Option Limit → Option Limit
  | some a, some b =>
    if a.value < b.value then some b
    else if b.value < a.value then some a
    else some ⟨a.value, a.strict || b.strict⟩
  | some a, none => some a
  | none, b => b

def lower : Option Limit → Option Limit → Option Limit
  | some a, some b =>
    if a.value < b.value then some a
    else if b.value < a.value then some b
    else some ⟨a.value, a.strict || b.strict⟩
  | some a, none => some a
  | none, b => b

def meet (a b : Interval) : Interval := ⟨higher a.lo b.lo, lower a.hi b.hi⟩

def isEmpty (a : Interval) : Bool :=
  match a.lo, a.hi with
  | some l, some h => h.value < l.value || (l.value = h.value && (l.strict || h.strict))
  | _, _ => false

def value? (a : Interval) : Option Rat :=
  match a.lo, a.hi with
  | some l, some h => if l.value = h.value then some l.value else none
  | _, _ => none

def contains (a : Interval) (q : Rat) : Bool :=
  (a.lo.all fun l => l.value < q || (l.value = q && !l.strict)) &&
    a.hi.all fun h => q < h.value || (h.value = q && !h.strict)

/-- Whether every number of an interval is above zero, or every one below. -/
def excludesZero (a : Interval) : Bool := !a.contains 0

def neg (a : Interval) : Interval :=
  ⟨a.hi.map fun l => ⟨-l.value, l.strict⟩, a.lo.map fun l => ⟨-l.value, l.strict⟩⟩

def addLimit : Option Limit → Option Limit → Option Limit
  | some a, some b => some ⟨a.value + b.value, a.strict || b.strict⟩
  | _, _ => none

def add (a b : Interval) : Interval := ⟨addLimit a.lo b.lo, addLimit a.hi b.hi⟩

def scale (c : Rat) (a : Interval) : Interval :=
  if c = 0 then point 0
  else
    let scaled : Interval :=
      ⟨a.lo.map fun l => ⟨c * l.value, l.strict⟩, a.hi.map fun l => ⟨c * l.value, l.strict⟩⟩
    if 0 < c then scaled else ⟨scaled.hi, scaled.lo⟩

inductive Corner where
  | minus
  | at (l : Limit)
  | plus
deriving Repr, Inhabited

namespace Corner

def sign : Corner → Int
  | minus => -1
  | plus => 1
  | .at l => if l.value < 0 then -1 else if l.value = 0 then 0 else 1

def mul : Corner → Corner → Corner
  | .at a, .at b =>
    let touched := (a.value = 0 && !a.strict) || (b.value = 0 && !b.strict)
    .at ⟨a.value * b.value, !touched && (a.strict || b.strict)⟩
  | .at a, b =>
    if a.value = 0 then .at a else if a.value < 0 then (if b.sign < 0 then plus else minus) else b
  | a, .at b =>
    if b.value = 0 then .at b else if b.value < 0 then (if a.sign < 0 then plus else minus) else a
  | a, b => if a.sign = b.sign then plus else minus

def min : Corner → Corner → Corner
  | minus, _ => minus
  | _, minus => minus
  | plus, b => b
  | a, plus => a
  | .at a, .at b =>
    if a.value < b.value then .at a
    else if b.value < a.value then .at b
    else .at ⟨a.value, a.strict && b.strict⟩

def max : Corner → Corner → Corner
  | plus, _ => plus
  | _, plus => plus
  | minus, b => b
  | a, minus => a
  | .at a, .at b =>
    if a.value < b.value then .at b
    else if b.value < a.value then .at a
    else .at ⟨a.value, a.strict && b.strict⟩

def limit? : Corner → Option Limit
  | .at l => some l
  | _ => none

end Corner

def corners (a : Interval) : Corner × Corner :=
  (match a.lo with
    | some l => .at l
    | none => .minus, match a.hi with
    | some l => .at l
    | none => .plus)

def mul (a b : Interval) : Interval :=
  let (al, ah) := a.corners
  let (bl, bh) := b.corners
  let w := al.mul bl
  let x := al.mul bh
  let y := ah.mul bl
  let z := ah.mul bh
  ⟨((w.min x).min (y.min z)).limit?, ((w.max x).max (y.max z)).limit?⟩

def inv (a : Interval) : Interval :=
  let flip : Option Limit → Option Limit
    | some l => if l.value = 0 then none else some ⟨1 / l.value, l.strict⟩
    | none => some ⟨0, true⟩
  ⟨flip a.hi, flip a.lo⟩

def size (a : Interval) : Option Limit :=
  match a.lo, a.hi with
  | some l, some h =>
    let l : Limit := ⟨-l.value, l.strict⟩
    if l.value < h.value then some h
    else if h.value < l.value then some l
    else some ⟨h.value, l.strict && h.strict⟩
  | _, _ => none

def pow (a : Interval) : Nat → Interval
  | 0 => point 1
  | n + 1 =>
    if n = 0 then a
    else if (n + 1) % 2 = 0 && a.contains 0 then
      ⟨some ⟨0, false⟩, a.size.map fun l => ⟨l.value ^ (n + 1), l.strict⟩⟩
    else if (n + 1) % 2 = 0 && (a.hi.any fun h => h.value ≤ 0) then
      ⟨a.hi.map fun l => ⟨l.value ^ (n + 1), l.strict⟩,
        a.lo.map fun l => ⟨l.value ^ (n + 1), l.strict⟩⟩
    else
      ⟨a.lo.map fun l => ⟨l.value ^ (n + 1), l.strict⟩,
        a.hi.map fun l => ⟨l.value ^ (n + 1), l.strict⟩⟩

def integers (a : Interval) : Interval :=
  ⟨a.lo.map fun l =>
      ⟨((if l.strict then l.value.floor + 1 else l.value.ceil : Int) : Rat), false⟩,
    a.hi.map fun l =>
      ⟨((if l.strict then l.value.ceil - 1 else l.value.floor : Int) : Rat), false⟩⟩

/-- The interval with ends of few digits that are not inside the given ones. -/
def rounded (a : Interval) : Interval :=
  let unit : Rat := Nat.pow 2 64
  let isLong (q : Rat) : Bool := Nat.pow 2 96 < q.den
  ⟨a.lo.map fun l =>
      if isLong l.value then ⟨((l.value * unit).floor : Int) / unit, true⟩ else l,
    a.hi.map fun l =>
      if isLong l.value then ⟨((l.value * unit).ceil : Int) / unit, true⟩ else l⟩

def width? (a : Interval) : Option Rat :=
  match a.lo, a.hi with
  | some l, some h => some (h.value - l.value)
  | _, _ => none

end Interval

/-! ## Roots of rationals -/

def rootBits (k n : Nat) : Nat → Nat → Nat
  | 0, r => r
  | i + 1, r => if (r + 2 ^ i) ^ k ≤ n then rootBits k n i (r + 2 ^ i) else rootBits k n i r

def floorRoot (k n : Nat) : Nat := rootBits k n (n.log2 / k + 1) 0

/-- The root of a rational that is not negative, rounded down; exact if it is rational. -/
def rootBelow (k : Nat) (q : Rat) : Rat :=
  let r : Rat := (floorRoot k q.num.natAbs : Rat) / (floorRoot k q.den : Rat)
  if r ^ k = q then r
  else
    let unit : Nat := Nat.pow 2 40
    (floorRoot k (q * (unit.pow k : Rat)).floor.toNat : Rat) / (unit : Rat)

/-- The root of a rational that is not negative, rounded up; exact if it is rational. -/
def rootAbove (k : Nat) (q : Rat) : Rat :=
  let r := rootBelow k q
  if r ^ k = q then r else r + 1 / (Nat.pow 2 40 : Rat)

namespace Interval

/-- The numbers whose powers lie in an interval, so far as an interval shows them; their sign may
be known. -/
def root (k : Nat) (power sign : Interval) : Interval :=
  let below (l : Limit) : Limit :=
    ⟨if 0 ≤ l.value then rootBelow k l.value else -(rootAbove k (-l.value)), l.strict &&
      (if 0 ≤ l.value then rootBelow k l.value else -(rootAbove k (-l.value))) ^ k = l.value⟩
  let above (l : Limit) : Limit :=
    ⟨if 0 ≤ l.value then rootAbove k l.value else -(rootBelow k (-l.value)), l.strict &&
      (if 0 ≤ l.value then rootAbove k l.value else -(rootBelow k (-l.value))) ^ k = l.value⟩
  if k % 2 = 1 then ⟨power.lo.map below, power.hi.map above⟩
  else
    let outer : Option Limit := power.hi.map fun l => above ⟨greaterOf l.value 0, l.strict⟩
    let inner : Option Limit := (power.lo.filter fun l => 0 < l.value).map below
    let isPositive := sign.lo.any fun l => 0 ≤ l.value
    let isNegative := sign.hi.any fun l => l.value ≤ 0
    let negated : Option Limit → Option Limit := Option.map fun l => ⟨-l.value, l.strict⟩
    if isPositive then ⟨inner.or (some ⟨0, false⟩), outer⟩
    else if isNegative then ⟨negated outer, (negated inner).or (some ⟨0, false⟩)⟩
    else ⟨negated outer, outer⟩

end Interval

end Branchwise
