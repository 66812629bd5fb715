import Branchwise.Solver.Interval
import Branchwise.Solver.Poly

/-!
# Boxes

A box gives each coordinate an interval.  A statement on a polynomial narrows it: each term lies
where the other terms leave room for it, and so does each factor of a term.  A product of integers
that is not zero is at least as large as each factor.
-/

namespace Branchwise

abbrev Box := Array Interval

namespace Box

def full (size : Nat) : Box := Array.replicate size .full

def get (b : Box) (x : Coord) : Interval := b.getD x.index .full

def powers (m : Monomial) : List (Coord × Nat) := m.eraseDups.map fun x => (x, m.count x)

def product (b : Box) (factors : List (Coord × Nat)) : Interval :=
  factors.foldl (fun i f => i.mul ((b.get f.1).pow f.2)) (.point 1)

/-- Where a statement leaves a term whose other terms lie in an interval. -/
def room (s : Sense) (rest : Interval) : Interval :=
  match s with
  | .zero => rest.neg
  | .nonneg => ⟨rest.neg.lo, none⟩
  | .pos => ⟨rest.neg.lo.map fun l => ⟨l.value, true⟩, none⟩

/-- Whether a new interval is worth keeping: always for integers, and for reals if it is much
narrower. -/
def isProgress (x : Coord) (old new : Interval) : Bool :=
  if old = new then false
  else if x.integral then true
  else
    match old.width?, new.width? with
    | some w, some v => v * 16 < w * 15
    | none, some _ => true
    | _, _ => (old.lo.isNone && new.lo.isSome) || (old.hi.isNone && new.hi.isSome)

/-- Ends that are larger than this are not kept, since they could grow without end. -/
def maxEnd : Rat := Nat.pow 2 200

def withinReach (i : Interval) : Interval :=
  let keep : Option Limit → Option Limit :=
    Option.filter fun l => -maxEnd ≤ l.value && l.value ≤ maxEnd
  ⟨keep i.lo, keep i.hi⟩

def narrow (b : Box) (x : Coord) (i : Interval) : Option Box :=
  let old := b.get x
  let new := old.meet (withinReach i)
  let new := if x.integral then new.integers else new.rounded
  if new.isEmpty then none
  else if isProgress x old new then some (b.setIfInBounds x.index new)
  else some b

def factorPower (whole others : Interval) (isIntegral : Bool) : Interval :=
  if others.excludesZero then whole.mul others.inv
  else if isIntegral && whole.excludesZero then
    match whole.size with
    | some l => ⟨some ⟨-l.value, l.strict⟩, some l⟩
    | none => .full
  else .full

def narrowProduct (b : Box) (m : Monomial) (i : Interval) : Option Box :=
  let factors := powers m
  let isIntegral := m.all Coord.integral
  let whole := (b.product factors).meet i
  let whole := if isIntegral then whole.integers else whole
  if whole.isEmpty then none
  else factors.foldlM (fun b f =>
    let others := b.product (factors.filter fun g => g.1 ≠ f.1)
    let power := factorPower whole others isIntegral
    let own := b.get f.1
    b.narrow f.1 (if f.2 = 1 then power else Interval.root f.2 power own)) b

def otherSums (start : Interval) : List Interval → List Interval
  | [] => []
  | i :: is => is.foldl Interval.add start :: otherSums (start.add i) is

def narrowAtom (b : Box) (a : Atom) : Option Box :=
  let parts := a.poly.terms.map fun t => (b.product (powers t.1)).scale t.2
  if a.poly.terms.isEmpty then (if a.sense.holds a.poly.const then some b else none)
  else
    (a.poly.terms.zip (otherSums (.point a.poly.const) parts)).foldlM
      (fun b (t, rest) => b.narrowProduct t.1 ((room a.sense rest).scale (1 / t.2))) b

/-- Narrows a box by statements, again and again up to a number of times. -/
def narrowAll (atoms : List Atom) : Nat → Box → Option Box
  | 0, b => some b
  | passes + 1, b =>
    match atoms.foldlM narrowAtom b with
    | none => none
    | some c => if c = b then some b else narrowAll atoms passes c

def maxPasses : Nat := 10

/-- What statements leave of a box of a given size; `none` if nothing is left. -/
def narrowed (size : Nat) (atoms : List Atom) (b : Box) : Option Box :=
  narrowAll atoms maxPasses (b ++ full (size - b.size))

end Box

end Branchwise
