import Branchwise.Solver.Box
import Std.Data.HashMap

/-!
# Differences

Two coordinates exclude each other if one of them has to lie before the other by some distance.
Coordinates any two of which exclude each other form a sequence.  It needs the distances of all of
them but the last, whatever its order is; where there is less room, they cannot all be placed.
-/

namespace Branchwise

/-- One coordinate is larger than another by some distance at least, which may be negative. -/
structure Difference where
  first : Coord
  second : Coord
  distance : Rat

namespace Difference

/-- What a statement on the difference of two coordinates says about the distance from one to the
other. -/
def ofAtom (a : Atom) : List Difference :=
  match a.poly.terms with
  | [([x], c), ([y], d)] =>
    if c + d ≠ 0 then []
    else
      let (x, y, c) := if 0 < c then (y, x, c) else (x, y, d)
      let q := -a.poly.const / c
      let whole := x.integral && y.integral
      match a.sense with
      | .zero => [⟨x, y, q⟩, ⟨y, x, -q⟩]
      | .nonneg => [⟨x, y, if whole then q.ceil else q⟩]
      | .pos => [⟨x, y, if whole then (q.floor + 1 : Int) else q⟩]
  | _ => []

end Difference

def Difference.order? (a : Atom) : Option Difference :=
  (ofAtom a).find? fun d => 0 < d.distance

/-- The distances by which coordinates lie before others, by their numbers.  A coordinate that
cannot lie before another has none. -/
abbrev Distances := Std.HashMap (Nat × Nat) (Option Rat)

namespace Distances

/-- Adds what is known about two coordinates if the first lies before the second. -/
def put (d : Distances) (x y : Coord) (q : Option Rat) : Distances :=
  d.insert (x.index, y.index) (match d[(x.index, y.index)]?, q with
    | none, q => q
    | some (some p), some q => some (greaterOf p q)
    | _, _ => none)

def exclude (d : Distances) (p q : Difference) : Distances :=
  (d.put p.first p.second (some p.distance)).put q.first q.second (some q.distance)

def order (d : Distances) (p : Difference) : Distances :=
  (d.put p.first p.second (some p.distance)).put p.second p.first none

def isPair (d : Distances) (x y : Coord) : Bool := d.contains (x.index, y.index)

/-- Coordinates among some that exclude each other, taken in their order. -/
def sequence (d : Distances) (xs : List Coord) : List Coord :=
  (xs.foldl (fun chosen x => if chosen.all (d.isPair x) then x :: chosen else chosen) []).reverse

def need (d : Distances) (xs : List Coord) (x : Coord) : Rat :=
  match xs.filterMap fun y => (d[(x.index, y.index)]?).join with
  | [] => 0
  | q :: qs => qs.foldl lesserOf q

end Distances

/-- A part of a line that something has to lie in, and how much of it that needs. -/
structure Slot where
  start : Rat
  stop : Rat
  need : Rat

/-- Whether the things that have to lie between two ends need more than there is. -/
def Slot.isFull (slots : List Slot) (start stop : Rat) : Bool :=
  match slots.filter fun s => start ≤ s.start && s.stop ≤ stop with
  | [] => false
  | inner => stop - start < inner.foldl (fun n s => n + s.need) 0

/-- Whether coordinates that exclude each other cannot all be placed in a box. -/
def Distances.isCrowded (d : Distances) (box : Box) (xs : List Coord) : Bool :=
  let slots := xs.filterMap fun x => do
    let lo ← (box.get x).lo
    let hi ← (box.get x).hi
    let need := d.need xs x
    return Slot.mk lo.value (hi.value + need) need
  let stops := (slots.map Slot.stop).eraseDups
  (slots.map Slot.start).eraseDups.any fun start => stops.any (Slot.isFull slots start)

end Branchwise
