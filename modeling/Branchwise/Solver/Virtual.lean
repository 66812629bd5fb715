import Branchwise.Solver.Scenario

/-!
# Eliminating a real coordinate

The statements on a real coordinate hold somewhere exactly if they hold at the lower end of an
interval on which they all hold: minus infinity, a root of one of the polynomials, or the place
right after a root.  That works for degree two at most.
-/

namespace Branchwise

/-- A place `(rational + sign · √radicand) / denominator` for a coordinate, whose denominator is not
zero; `after` is the place right after it. -/
structure TestRoot where
  rational : Poly
  sign : Rat
  radicand : Poly
  denominator : Poly
  after : Bool

inductive TestPlace where
  | minusInfinity
  | root (r : TestRoot)

namespace Virtual

abbrev Cases := List (List Goal)

def both (a b : Cases) : Cases := a.flatMap fun x => b.map fun y => x ++ y

inductive Sign where
  | zero
  | nonneg
  | pos
  | apart
deriving DecidableEq, Repr, Inhabited

def Sign.ofSense : Sense → Sign
  | .zero => .zero
  | .nonneg => .nonneg
  | .pos => .pos

open Scenario in
def surdCases (a b d : Poly) (s : Sign) : Cases :=
  if b.terms.isEmpty && b.const = 0 then
    match s with
    | .zero => [[isZero a]]
    | .nonneg => [[isNonneg a]]
    | .pos => [[isPos a]]
    | .apart => [[.apart a]]
  else
    let norm := (a.mul a).sub ((b.mul b).mul d)
    let positive (a b : Poly) : Cases :=
      [[isPos a, isPos norm], [isNonneg b, isPos a], [isNonneg b, isPos norm.neg]]
    match s with
    | .zero => [[isNonneg (a.mul b).neg, isZero norm]]
    | .nonneg => [[isNonneg a, isNonneg norm], [isNonneg b, isNonneg norm.neg]]
    | .pos => positive a b
    | .apart => positive a b ++ positive a.neg b.neg

/-- The value of a polynomial, given by its coefficients, at a root: the parts `a` and `b` of
`a + b·√d`, multiplied by an even power of the denominator. -/
def valueAt (r : TestRoot) (coefficients : List Poly) : Poly × Poly :=
  let degree := coefficients.length - 1
  let top := if degree % 2 = 0 then degree else degree + 1
  let power (p : Poly) (n : Nat) : Poly := (List.range n).foldl (fun q _ => q.mul p) (.ofConst 1)
  let sums := coefficients.foldl (fun (acc : (Poly × Poly) × (Poly × Poly) × Nat) c =>
    let ((a, b), (u, v), i) := acc
    let scale := c.mul (power r.denominator (top - i))
    let next := ((u.mul r.rational).add ((v.mul r.radicand).scale r.sign),
      (u.scale r.sign).add (v.mul r.rational))
    ((a.add (scale.mul u), b.add (scale.mul v)), next, i + 1))
    ((.ofConst 0, .ofConst 0), (.ofConst 1, .ofConst 0), 0)
  sums.1

def derivative (coefficients : List Poly) : List Poly :=
  (coefficients.zipIdx.drop 1).map fun (c, i) => c.scale (i : Rat)

def vanishes (coefficients : List Poly) : List Goal := coefficients.map Scenario.isZero

def survives (coefficients : List Poly) : Cases := coefficients.map fun c => [.apart c]

/-- A polynomial is positive right after a root: it is positive there, or zero with a derivative
that is positive right after.  `fuel` is at least the number of coefficients. -/
def positiveAfter (r : TestRoot) : Nat → List Poly → Cases
  | 0, _ => []
  | fuel + 1, coefficients =>
    let (a, b) := valueAt r coefficients
    surdCases a b r.radicand .pos ++
      if coefficients.length ≤ 1 then []
      else both (surdCases a b r.radicand .zero) (positiveAfter r fuel (derivative coefficients))

/-- A polynomial is positive at minus infinity, by its coefficients from the highest on and the sign
of their powers. -/
def positiveFarBelow : List (Poly × Bool) → Cases
  | [] => []
  | (c, even) :: rest =>
    [Scenario.isPos (if even then c else c.neg)] ::
      (positiveFarBelow rest).map fun goals => Scenario.isZero c :: goals

def casesAt (place : TestPlace) (coefficients : List Poly) (s : Sign) : Cases :=
  let nowhere (positive : Cases) : Cases :=
    match s with
    | .zero => [vanishes coefficients]
    | .nonneg => vanishes coefficients :: positive
    | .pos => positive
    | .apart => survives coefficients
  match place with
  | .minusInfinity =>
    nowhere (positiveFarBelow ((coefficients.zipIdx.map fun (c, i) => (c, i % 2 = 0)).reverse))
  | .root r =>
    if r.after then nowhere (positiveAfter r coefficients.length coefficients)
    else
      let (a, b) := valueAt r coefficients
      surdCases a b r.radicand s

open Scenario in
/-- The roots of a polynomial of degree two at most, each with what makes it one. -/
def testRoots (coefficients : List Poly) (after : Bool) : List (List Goal × TestRoot) :=
  let zero := Poly.ofConst 0
  match coefficients with
  | [c, b] => [([.apart b], ⟨c.neg, 0, zero, b, after⟩)]
  | [c, b, a] =>
    let d := (b.mul b).sub ((a.mul c).scale 4)
    let root (s : Rat) : List Goal × TestRoot :=
      ([.apart a, isNonneg d], ⟨b.neg, s, d, a.scale 2, after⟩)
    [root 1, root (-1), ([isZero a, .apart b], ⟨c.neg, 0, zero, b, after⟩)]
  | _ => []

def isAbsurd : Goal → Bool
  | .atom a => a.poly.terms.isEmpty && !a.sense.holds a.poly.const
  | .apart p => p.terms.isEmpty && p.const = 0
  | _ => false

def isTrivial : Goal → Bool
  | .atom a => a.poly.terms.isEmpty && a.sense.holds a.poly.const
  | .apart p => p.terms.isEmpty && p.const ≠ 0
  | _ => false

/-- The alternatives that are not absurd, without their trivial goals. -/
def tidy (cases : Cases) : Cases :=
  (cases.filter fun goals => !goals.any isAbsurd).map fun goals =>
    goals.filter fun g => !isTrivial g

structure Without where
  goals : List Goal
  splits : List Cases

abbrev Statement := List Poly × Sign

def systemAt (statements : List Statement) (guard : List Goal) (place : TestPlace) :
    Option Without :=
  let all := tidy [guard] :: statements.map fun (c, s) => tidy (casesAt place c s)
  if all.any List.isEmpty then none
  else
    let (single, several) := all.partition fun cases => cases.any List.isEmpty || cases.length = 1
    some ⟨single.flatMap fun cases =>
      if cases.any List.isEmpty then [] else cases.flatten, several⟩

/-- The systems of which one has to hold if some statements on a coordinate do.  If one of them is
an equation, its roots suffice, and the case that it says nothing. -/
def eliminate : Nat → List Statement → List Without
  | 0, _ => []
  | fuel + 1, statements =>
    match statements.find? fun (c, s) => s = .zero && 1 < c.length with
    | some (c, s) =>
      let others := statements.filter fun t => t.1 ≠ c || t.2 ≠ s
      let atRoots := (testRoots c false).filterMap fun (guard, r) =>
        systemAt others guard (.root r)
      let constant := c.any fun p => p.terms.isEmpty && p.const ≠ 0
      let vanishing := if constant then [] else
        (eliminate fuel others).map fun w => { w with goals := vanishes c ++ w.goals }
      atRoots ++ vanishing
    | none =>
      let roots := statements.flatMap fun (c, s) =>
        testRoots c (s = .pos || s = .apart)
      (systemAt statements [] .minusInfinity).toList ++
        roots.filterMap fun (guard, r) => systemAt statements guard (.root r)

def canEliminate (x : Coord) (polys : List Poly) : Bool :=
  !x.integral && polys.all fun p => p.degree x ≤ 2

end Virtual

end Branchwise
