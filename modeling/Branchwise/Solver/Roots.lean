import Branchwise.Solver.Interval
import Branchwise.Solver.Poly

/-!
# Roots of polynomials in one unknown

The real roots of a polynomial are counted by the changes of sign along its Sturm chain and kept
apart by intervals with rational ends.  A rational root is found exactly, since its product with the
leading coefficient of an integral polynomial is an integer.
-/

namespace Branchwise

/-- The coefficients of a polynomial in one unknown, that of the lowest power first, without zeros
at the end. -/
abbrev Univariate := List Rat

namespace Univariate

def trim (p : Univariate) : Univariate := (p.reverse.dropWhile (· = 0)).reverse

def eval (p : Univariate) (x : Rat) : Rat := p.foldr (fun c s => c + x * s) 0

def lead (p : Univariate) : Rat := (p.getLast?).getD 0

def derivative (p : Univariate) : Univariate := (p.zipIdx.drop 1).map fun (c, i) => c * (i : Rat)

def scale (c : Rat) (p : Univariate) : Univariate := if c = 0 then [] else p.map (c * ·)

def sub : Univariate → Univariate → Univariate
  | [], q => q.map (- ·)
  | p, [] => p
  | c :: p, d :: q => (c - d) :: sub p q

def mul (p q : Univariate) : Univariate :=
  p.foldr (fun c r => sub (scale c q) ((0 :: r).map (- ·))) []

/-- Quotient and remainder of a division by a polynomial that is not zero; `fuel` is at least the
number of coefficients of the dividend. -/
def divide (q : Univariate) : Nat → Univariate → Univariate → Univariate × Univariate
  | 0, quotient, p => (quotient, p)
  | fuel + 1, quotient, p =>
    if p.length < q.length then (quotient, p)
    else
      let c := p.lead / q.lead
      let shift := List.replicate (p.length - q.length) (0 : Rat)
      divide q fuel (sub quotient (shift ++ [-c])) (trim (sub p (shift ++ scale c q)))

def quotient (p q : Univariate) : Univariate := trim (divide q (p.length + 1) [] p).1

def remainder (p q : Univariate) : Univariate := (divide q (p.length + 1) [] p).2

def normal (p : Univariate) : Univariate :=
  let c := p.lead
  scale (1 / (if c < 0 then -c else c)) p

def gcd : Nat → Univariate → Univariate → Univariate
  | 0, p, _ => p
  | fuel + 1, p, q => if q.isEmpty then p else gcd fuel q (normal (remainder p q))

def commonDivisor (p q : Univariate) : Univariate := gcd (p.length + q.length + 1) p q

def squareFree (p : Univariate) : Univariate :=
  let g := commonDivisor p (derivative p)
  if g.length ≤ 1 then p else quotient p g

def chain : Nat → Univariate → Univariate → List Univariate
  | 0, p, _ => [p]
  | fuel + 1, p, q =>
    if q.isEmpty then [p] else p :: chain fuel q (normal (scale (-1) (remainder p q)))

def sturm (p : Univariate) : List Univariate := chain (p.length + 1) p (derivative p)

def signChanges (vs : List Rat) : Nat :=
  let signs := vs.filter (· ≠ 0)
  ((signs.zip (signs.drop 1)).filter fun (a, b) => (a < 0) ≠ (b < 0)).length

def rootsBetween (chain : List Univariate) (lo hi : Rat) : Nat :=
  signChanges (chain.map (eval · lo)) - signChanges (chain.map (eval · hi))

def rootBound (p : Univariate) : Rat :=
  let c := p.lead
  p.foldl (fun m d => greaterOf m (if d / c < 0 then -(d / c) else d / c)) 0 + 1

/-- An interval that holds one root; the lower end does not belong to it.  A root that is known
exactly is both ends. -/
structure RootInterval where
  lo : Rat
  hi : Rat
deriving DecidableEq, Repr, Inhabited

def RootInterval.exact (r : RootInterval) : Bool := r.lo = r.hi

def separate (chain : List Univariate) : Nat → Rat → Rat → List RootInterval
  | 0, _, _ => []
  | fuel + 1, lo, hi =>
    match rootsBetween chain lo hi with
    | 0 => []
    | 1 => [⟨lo, hi⟩]
    | _ =>
      let mid := (lo + hi) / 2
      separate chain fuel lo mid ++ separate chain fuel mid hi

def halve (p : Univariate) (r : RootInterval) : RootInterval :=
  if r.exact then r
  else
    let mid := (r.lo + r.hi) / 2
    let atMid := p.eval mid
    let atHi := p.eval r.hi
    if atHi = 0 then ⟨r.hi, r.hi⟩
    else if atMid = 0 then ⟨mid, mid⟩
    else if (atMid < 0) = (atHi < 0) then ⟨r.lo, mid⟩ else ⟨mid, r.hi⟩

def refine (p : Univariate) (width : Rat) : Nat → RootInterval → RootInterval
  | 0, r => r
  | fuel + 1, r => if r.hi - r.lo < width then r else refine p width fuel (halve p r)

def maxHalvings : Nat := 4000

def integralLead (p : Univariate) : Rat :=
  let c := p.lead * (p.foldl (fun n c => Nat.lcm n c.den) 1 : Nat)
  if c < 0 then -c else c

def sharpen (p : Univariate) (r : RootInterval) : RootInterval :=
  let c := p.integralLead
  let r := refine p (1 / (2 * c)) maxHalvings r
  if r.exact then r
  else
    let q : Rat := (((r.hi * c).floor : Int) : Rat) / c
    if r.lo < q && p.eval q = 0 then ⟨q, q⟩ else r

def roots (p : Univariate) : List RootInterval :=
  if p.length ≤ 1 then []
  else
    let b := p.rootBound
    (separate p.sturm maxHalvings (-b) b).map p.sharpen

/-- The sign of another polynomial at a root of a polynomial without multiple roots. -/
def signAt (p : Univariate) (r : RootInterval) (q : Univariate) : Rat :=
  if r.exact then q.eval r.hi
  else
    let g := squareFree (commonDivisor p q)
    if 1 < g.length && rootsBetween g.sturm r.lo r.hi ≠ 0 then 0
    else
      let chain := (squareFree q).sturm
      let rec narrow : Nat → RootInterval → RootInterval
        | 0, r => r
        | fuel + 1, r => if rootsBetween chain r.lo r.hi = 0 then r else narrow fuel (halve p r)
      q.eval (narrow maxHalvings r).hi

/-- A rational near a root, with far more digits than a binary number has. -/
def near (p : Univariate) (r : RootInterval) : Rat :=
  let size := greaterOf (if r.lo < 0 then -r.lo else r.lo) (if r.hi < 0 then -r.hi else r.hi)
  let r := refine p (size / (Nat.pow 2 200 : Rat)) maxHalvings r
  (r.lo + r.hi) / 2

/-! ## Places where statements hold -/

structure Claim where
  poly : Univariate
  sense : Sense
deriving DecidableEq, Repr, Inhabited

/-- The integers that satisfy a statement, as ranges in order; an end may be missing. -/
def integerRanges (c : Claim) : List (Option Int × Option Int) :=
  let p := c.poly.squareFree
  let cuts := p.roots.flatMap fun r =>
    if r.exact && r.hi.den = 1 then [r.hi.num - 1, r.hi.num]
    else
      let r := if r.exact then r else
        let rec narrow : Nat → RootInterval → RootInterval
          | 0, r => r
          | fuel + 1, r => if r.lo.floor = r.hi.floor then r else narrow fuel (halve p r)
        narrow maxHalvings r
      [r.hi.floor]
  let cuts := cuts.eraseDups
  let holds (n : Int) : Bool := c.sense.holds (c.poly.eval n)
  match cuts with
  | [] => if holds 0 then [(none, none)] else []
  | first :: _ =>
    let head := if holds first then [(none, some first)] else []
    let inner := (cuts.zip (cuts.drop 1)).filterMap fun (a, b) =>
      if holds (a + 1) then some (some (a + 1), some b) else none
    let last := (cuts.getLast?).getD first
    head ++ inner ++ if holds (last + 1) then [(some (last + 1), none)] else []

/-- A place on the real line: a rational, or a root that is none. -/
inductive Place where
  | at (q : Rat)
  | root (p : Univariate) (r : RootInterval)
deriving Repr, Inhabited

def Place.rational : Place → Rat
  | .at q => q
  | .root p r => p.near r

def Place.isExact : Place → Bool
  | .at _ => true
  | .root _ _ => false

/-- Places of every kind that a polynomial without multiple roots tells apart: each root, and a
point of each part between roots. -/
def places (p : Univariate) : List Place :=
  let rs := p.roots
  let ends := rs.map fun r => if r.exact then Place.at r.hi else .root p r
  match rs.head?, rs.getLast? with
  | some first, some last =>
    let between := (rs.zip (rs.drop 1)).map fun (a, b) => Place.at (gap 64 a b)
    let nice (q : Rat) : Rat := ((q.floor : Int) : Rat)
    Place.at (nice first.lo - 1) :: .at (nice last.hi + 2) :: between ++ ends
  | _, _ => [.at 0]
where
  gap : Nat → RootInterval → RootInterval → Rat
    | 0, a, b => (a.hi + b.lo) / 2
    | fuel + 1, a, b =>
      if a.hi < b.lo then (a.hi + b.lo) / 2
      else if a.hi = b.lo && !a.exact && p.eval a.hi ≠ 0 then a.hi
      else gap fuel (halve p a) (halve p b)

def Claim.holdsAt (c : Claim) : Place → Bool
  | .at q => c.sense.holds (c.poly.eval q)
  | .root p r => c.sense.holds (signAt p r c.poly)

/-- A real place at which all statements hold and some polynomials are not zero; `none` if there is
no such place. -/
def solve? (claims : List Claim) (apart : List Univariate) : Option Place :=
  let all := ((claims.map Claim.poly) ++ apart).filter fun p => 1 < p.length
  let p := squareFree (all.foldl (fun p q => squareFree (mul p q)) [1])
  (places p).find? fun x =>
    (claims.all fun c => c.holdsAt x) && apart.all fun q => !(Claim.holdsAt ⟨q, .zero⟩ x)

def best (claims : List Claim) : Option Place :=
  let all := (claims.map Claim.poly).filter fun p => 1 < p.length
  let p := squareFree (all.foldl (fun p q => squareFree (mul p q)) [1])
  let count (x : Place) : Nat := (claims.filter fun c => c.holdsAt x).length
  match places p with
  | [] => none
  | x :: xs => some (xs.foldl (fun y z => if count y < count z then z else y) x)

end Univariate

end Branchwise
