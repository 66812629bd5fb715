import Branchwise.Solver.Interval
import Branchwise.Solver.Model
import Branchwise.Solver.Poly

/-!
# Linear inequalities by pivoting

The linear part of each statement is an unknown of its own, which lies between bounds.  A row whose
unknown violates a bound is exchanged with the first one that still has room, so that no state comes
back.  An integer unknown with a fractional value is split at that value.
-/

namespace Branchwise

/-! ## Pivoting -/

/-- A rational with a multiple of an arbitrarily small positive number. -/
structure Nudged where
  value : Rat
  nudge : Rat
deriving DecidableEq, Repr, Inhabited

namespace Nudged

def ofRat (q : Rat) : Nudged := ⟨q, 0⟩

def add (a b : Nudged) : Nudged := ⟨a.value + b.value, a.nudge + b.nudge⟩

def sub (a b : Nudged) : Nudged := ⟨a.value - b.value, a.nudge - b.nudge⟩

def scale (c : Rat) (a : Nudged) : Nudged := ⟨c * a.value, c * a.nudge⟩

def lt (a b : Nudged) : Bool := a.value < b.value || (a.value = b.value && a.nudge < b.nudge)

def isInteger (a : Nudged) : Bool := a.value.den = 1 && a.nudge = 0

def floor (a : Nudged) : Int :=
  if a.value.den = 1 && a.nudge < 0 then a.value.num - 1 else a.value.floor

end Nudged

abbrev SparseRow := List (Nat × Rat)

namespace SparseRow

def coeff (r : SparseRow) (x : Nat) : Rat :=
  match r.find? fun t => t.1 = x with
  | some t => t.2
  | none => 0

def scale (c : Rat) (r : SparseRow) : SparseRow := r.map fun t => (t.1, c * t.2)

def merge : Nat → SparseRow → SparseRow → SparseRow
  | 0, _, _ => []
  | _ + 1, [], s => s
  | _ + 1, r, [] => r
  | fuel + 1, (x, c) :: r, (y, d) :: s =>
    if x < y then (x, c) :: merge fuel r ((y, d) :: s)
    else if y < x then (y, d) :: merge fuel ((x, c) :: r) s
    else if c + d = 0 then merge fuel r s
    else (x, c + d) :: merge fuel r s

def add (r s : SparseRow) : SparseRow := merge (r.length + s.length) r s

def without (r : SparseRow) (x : Nat) : SparseRow := r.filter fun t => t.1 ≠ x

def subst (r : SparseRow) (x : Nat) (s : SparseRow) : SparseRow :=
  let c := r.coeff x
  if c = 0 then r else (r.without x).add (s.scale c)

end SparseRow

structure TableauRow where
  basic : Nat
  row : SparseRow
deriving Repr, Inhabited

structure Tableau where
  rows : Array TableauRow
  values : Array Nudged
  lower : Array (Option Nudged)
  upper : Array (Option Nudged)
deriving Repr, Inhabited

namespace Tableau

def value (t : Tableau) (x : Nat) : Nudged := t.values.getD x default

def low (t : Tableau) (x : Nat) : Option Nudged := t.lower.getD x none

def high (t : Tableau) (x : Nat) : Option Nudged := t.upper.getD x none

def canGrow (t : Tableau) (x : Nat) : Bool := (t.high x).all fun b => (t.value x).lt b

def canShrink (t : Tableau) (x : Nat) : Bool := (t.low x).all fun b => b.lt (t.value x)

/-- The bound that the unknown of a row violates, and whether it has to grow to meet it. -/
def violated (t : Tableau) (r : TableauRow) : Option (Nudged × Bool) :=
  let v := t.value r.basic
  match (t.low r.basic).filter fun b => v.lt b with
  | some b => some (b, true)
  | none => ((t.high r.basic).filter fun b => b.lt v).map (·, false)

/-- The row with the first unknown outside its bounds: its place, the bound and the direction. -/
def firstViolated (t : Tableau) : Option (Nat × TableauRow × Nudged × Bool) :=
  (t.rows.foldl (fun (acc : Nat × Option (Nat × TableauRow × Nudged × Bool)) r =>
    let isFirst : Bool := match acc.2 with
      | some (_, s, _) => r.basic < s.basic
      | none => true
    match (if isFirst then t.violated r else none) with
    | some (b, up) => (acc.1 + 1, some (acc.1, r, b, up))
    | none => (acc.1 + 1, acc.2)) (0, none)).2

/-- Brings the unknown of a row to a value by a change of another unknown of the row, and exchanges
the two. -/
def exchange (t : Tableau) (place : Nat) (r : TableauRow) (x : Nat) (c : Rat) (goal : Nudged) :
    Tableau :=
  let change := (goal.sub (t.value r.basic)).scale (1 / c)
  let values := t.rows.foldl (fun (vs : Array Nudged) s =>
    let d := s.row.coeff x
    if d = 0 then vs else vs.setIfInBounds s.basic ((vs.getD s.basic default).add (change.scale d)))
    t.values
  let values := values.setIfInBounds x ((t.value x).add change)
  let given := (SparseRow.add [(r.basic, 1)] ((r.row.without x).scale (-1))).scale (1 / c)
  let rows := t.rows.map fun s => { s with row := s.row.subst x given }
  { t with rows := rows.setIfInBounds place ⟨x, given⟩, values := values }

def settle : Nat → Tableau → Outcome Tableau
  | 0, _ => .unknown
  | fuel + 1, t =>
    match t.firstViolated with
    | none => .found t
    | some (place, r, bound, up) =>
      match r.row.find? fun (x, c) => if (0 < c) = up then t.canGrow x else t.canShrink x with
      | none => .impossible
      | some (x, c) => settle fuel (t.exchange place r x c bound)

def move (t : Tableau) (x : Nat) (goal : Nudged) : Tableau :=
  let change := goal.sub (t.value x)
  let values := t.rows.foldl (fun (vs : Array Nudged) s =>
    let d := s.row.coeff x
    if d = 0 then vs else vs.setIfInBounds s.basic ((vs.getD s.basic default).add (change.scale d)))
    t.values
  { t with values := values.setIfInBounds x goal }

def isBasic (t : Tableau) (x : Nat) : Bool := t.rows.any fun r => r.basic = x

def repair (t : Tableau) (x : Nat) : Tableau :=
  if t.isBasic x then t
  else
    let value := t.value x
    match (t.low x).filter fun b => value.lt b, (t.high x).filter fun b => b.lt value with
    | some b, _ => t.move x b
    | none, some b => t.move x b
    | none, none => t

def atLeast (t : Tableau) (x : Nat) (b : Nudged) : Tableau :=
  if (t.low x).any fun l => !l.lt b then t
  else { t with lower := t.lower.setIfInBounds x (some b) }.repair x

def atMost (t : Tableau) (x : Nat) (b : Nudged) : Tableau :=
  if (t.high x).any fun h => !b.lt h then t
  else { t with upper := t.upper.setIfInBounds x (some b) }.repair x

def clashes (t : Tableau) (x : Nat) : Bool :=
  match t.low x, t.high x with
  | some l, some h => h.lt l
  | _, _ => false

def maxExchanges : Nat := 5000

/-- Splits integer unknowns with fractional values, within a depth; the state counts the systems
that may still be looked at. -/
def settleIntegers (isInteger : Nat → Bool) (count : Nat) :
    Nat → Tableau → StateM Nat (Outcome Tableau)
  | 0, _ => return .unknown
  | depth + 1, t => do
    let left ← get
    if left = 0 then return .unknown
    set (left - 1)
    match t.settle maxExchanges with
    | .impossible => return .impossible
    | .unknown => return .unknown
    | .found t =>
      match (List.range count).find? fun x => isInteger x && !(t.value x).isInteger with
      | none => return .found t
      | some x =>
        let n := (t.value x).floor
        let below := t.atMost x (.ofRat n)
        let above := t.atLeast x (.ofRat (n + 1))
        let visit (t : Tableau) : StateM Nat (Outcome Tableau) :=
          if t.clashes x then return .impossible else settleIntegers isInteger count depth t
        match ← visit below with
        | .found t => return .found t
        | o =>
          match o, ← visit above with
          | _, .found t => return .found t
          | .impossible, .impossible => return .impossible
          | _, _ => return .unknown

end Tableau

namespace Simplex

/-- A statement on an unknown, or on the linear part of a form, that bounds it. -/
structure Bounded where
  terms : List (Coord × Rat)
  lower : Option Nudged
  upper : Option Nudged
deriving Repr, Inhabited

/-- A statement as bounds on a linear part whose first coefficient is positive. -/
def Bounded.ofAtom (a : LinAtom) : Bounded :=
  let isNegative := match a.form.terms with
    | (_, c) :: _ => decide (c < 0)
    | [] => false
  let limit : Nudged := ⟨if isNegative then a.form.const else -a.form.const,
    match a.sense with
    | .pos => if isNegative then -1 else 1
    | _ => 0⟩
  let terms := if isNegative then a.form.terms.map fun t => (t.1, -t.2) else a.form.terms
  match a.sense with
  | .zero => ⟨terms, some limit, some limit⟩
  | _ => if isNegative then ⟨terms, none, some limit⟩ else ⟨terms, some limit, none⟩

def Bounded.meet (a b : Bounded) : Bounded :=
  let tighter (keep : Nudged → Nudged → Bool) : Option Nudged → Option Nudged → Option Nudged
    | some x, some y => some (if keep x y then x else y)
    | some x, none => some x
    | none, y => y
  ⟨a.terms, tighter (fun x y => y.lt x) a.lower b.lower, tighter Nudged.lt a.upper b.upper⟩

/-- Adds bounds to others; those on the same linear part are put together. -/
def Bounded.insert (b : Bounded) : List Bounded → List Bounded
  | [] => [b]
  | c :: cs => if c.terms = b.terms then c.meet b :: cs else c :: b.insert cs

/-- The tableau of some statements over coordinates in the order of a list; those come first among
its unknowns, and the linear parts follow. -/
def tableau (coords : List Coord) (bounds : List Bounded) : Tableau :=
  let place (x : Coord) : Nat := coords.findIdx (· = x)
  let own (x : Coord) : Option Bounded := bounds.find? fun b => b.terms = [(x, 1)]
  let parts := bounds.filter fun b => !(match b.terms with
    | [(_, c)] => c = 1
    | _ => false)
  let start : Tableau := {
    rows := (parts.zipIdx.map fun (b, i) =>
      ⟨coords.length + i, (b.terms.map fun t => (place t.1, t.2)).mergeSort
        fun a b => a.1 ≤ b.1⟩).toArray
    values := Array.replicate (coords.length + parts.length) (.ofRat 0)
    lower := ((coords.map fun x => (own x).bind Bounded.lower) ++ parts.map Bounded.lower).toArray
    upper := ((coords.map fun x => (own x).bind Bounded.upper) ++ parts.map Bounded.upper).toArray }
  (List.range coords.length).foldl Tableau.repair start

/-- A positive number small enough for every strict bound that a tableau meets. -/
def smallEnough (t : Tableau) : Rat :=
  let room (low high : Nudged) (r : Rat) : Rat :=
    if low.value < high.value && high.nudge < low.nudge then
      lesserOf r ((high.value - low.value) / (low.nudge - high.nudge))
    else r
  (List.range t.values.size).foldl (fun r x =>
    let r := match t.low x with
      | some b => room b (t.value x) r
      | none => r
    match t.high x with
    | some b => room (t.value x) b r
    | none => r) 1

def assignment (coords : List Coord) (t : Tableau) : Assignment :=
  let small := smallEnough t
  coords.zipIdx.map fun (x, i) => (x.index, (t.value i).value + (t.value i).nudge * small)

def boundsOf (atoms : List LinAtom) : List Bounded :=
  atoms.foldl (fun bs a =>
    let b := Bounded.ofAtom a
    let b : Bounded := match b.terms with
      | [(x, c)] => ⟨[(x, 1)], b.lower.map (Nudged.scale (1 / c)), b.upper.map (.scale (1 / c))⟩
      | _ => b
    b.insert bs) []

/-- Decides inequalities by looking at so many systems at most, each reached by so many splits. -/
def solve (depth budget : Nat) (atoms : List LinAtom) : Outcome Assignment :=
  let coords := LinAtom.coords atoms
  let t := tableau coords (boundsOf atoms)
  if (List.range t.values.size).any t.clashes then .impossible
  else
    let isInteger (x : Nat) : Bool := (coords[x]?).any Coord.integral
    ((t.settleIntegers isInteger coords.length depth).run budget).1.map (assignment coords)

def relax (atoms : List LinAtom) : Outcome Assignment :=
  let coords := LinAtom.coords atoms
  let t := tableau coords (boundsOf atoms)
  if (List.range t.values.size).any t.clashes then .impossible
  else (t.settle Tableau.maxExchanges).map (assignment coords)

end Simplex

end Branchwise
