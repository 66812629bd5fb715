import Branchwise.Solver.Linear
import Branchwise.Solver.Model
import Branchwise.Solver.Pruning
import Branchwise.Solver.Roots
import Branchwise.Solver.Virtual

/-!
# Deciding conditions

Decides whether some conditions have a common solution.  A scenario is first decided with every
product taken for a coordinate of its own.  If that gives no solution of the conditions, splits are
decided, real coordinates eliminated and integers in products bounded and split.  Every solution
that is reported has been evaluated, except for one with an irrational value.
-/

namespace Branchwise

namespace Search

/-! ## Products as coordinates -/

def products (b : Scenario) : List Monomial :=
  ((b.atoms.flatMap fun a => a.poly.products) ++ b.apart.flatMap Poly.products).eraseDups

def productCoord (b : Scenario) (products : List Monomial) (m : Monomial) : Coord :=
  ⟨b.fresh + products.findIdx (· = m), m.all Coord.integral⟩

def isOpen (b : Scenario) : Bool := !(products b).isEmpty || !b.splits.isEmpty

/-- Decides a branch whose products are coordinates.  As long as it is open, integers may get
fractional values. -/
def relaxedSolution (systems : Nat) (b : Scenario) : Outcome Assignment :=
  let form := Poly.toForm (productCoord b (products b))
  let apart := b.apart.map form
  let atoms : List LinAtom := b.atoms.map fun a => ⟨form a.poly, a.sense⟩
  if isOpen b then Linear.explore apart atoms else Linear.solve systems apart atoms

/-! ## Models -/

def univariate (m : Assignment) (x : Coord) (p : Poly) : Univariate :=
  Univariate.trim ((p.coefficients x).map (Poly.eval m))

/-- An assignment, and whether all its values are exact. -/
structure Completion where
  values : Assignment
  isExact : Bool

/-- Adds the value of an eliminated coordinate; `none` if there is no such value. -/
def restore (c : Completion) (e : Eliminated) : Option Completion :=
  let claims := e.atoms.map fun a => (⟨univariate c.values e.coord a.poly, a.sense⟩ :
    Univariate.Claim)
  let apart := e.apart.map (univariate c.values e.coord)
  let place := if c.isExact then Univariate.solve? claims apart else
    Univariate.best claims
  place.map fun p => ⟨(e.coord.index, p.rational) :: c.values, c.isExact && p.isExact⟩

def complete (b : Scenario) (m : Assignment) : Option Completion :=
  b.eliminated.foldlM restore ⟨m, true⟩

def model (b : Scenario) (m : Assignment) : Model :=
  let table (s : TermSort) : List (Rat × Rat) :=
    (b.byZero.filter fun z => z.sort = s).map fun z => (z.dividend.eval m, z.value.eval m)
  ⟨b.names, b.names.zipIdx.map fun n => m.get ⟨n.2, true⟩, table .int, table .real⟩

/-! ## Branches without splits -/

/-- Two divisions of the same number by zero to which an assignment gives different values. -/
def conflict (m : Assignment) : List ByZero → Option (ByZero × ByZero)
  | [] => none
  | z :: zs =>
    match zs.find? fun w => z.sort = w.sort && z.dividend.eval m = w.dividend.eval m &&
        z.value.eval m ≠ w.value.eval m with
    | some w => some (z, w)
    | none => conflict m zs

def statementsOn (b : Scenario) (x : Coord) : Eliminated :=
  ⟨x, b.atoms.filter fun a => a.poly.coords.contains x,
    b.apart.filter fun p => p.coords.contains x⟩

/-- A linear equation that gives a factor of a product without a division of integers, and what it
gives.  An integer factor is only given by other factors, so that there are not more of them. -/
def solvedFactor (factors : List Coord) (a : Atom) : Option (Eliminated × Poly) :=
  if a.sense = .zero && a.poly.isLinear then
    let f := a.poly.toForm fun _ => default
    let unit (c : Rat) : Bool := f.allIntegral && (c * f.integerFactor).num.natAbs = 1
    let isOther (x y : Coord) : Bool := y = x || factors.contains y
    match f.terms.find? fun (x, c) => factors.contains x &&
        (!x.integral || (unit c && f.coords.all (isOther x))) with
    | some (x, c) =>
      some (⟨x, [a], []⟩, (a.poly.without x).scale (-1 / c))
    | none => none
  else none

def substitute (b : Scenario) (e : Eliminated) (g : Poly) : Scenario :=
  let put (p : Poly) : Poly := p.subst e.coord g
  { b with
    atoms := (b.atoms.filter fun a => !e.atoms.contains a).map fun a => ⟨put a.poly, a.sense⟩
    apart := b.apart.map put
    byZero := b.byZero.map fun z => { z with dividend := put z.dividend, value := put z.value }
    eliminated := e :: b.eliminated }

def valueIs (x : Coord) (q : Rat) : Goal := Scenario.isZero ((Poly.ofCoord x).addConst (-q))

def isAtLeast (x : Coord) (q : Rat) : Goal := Scenario.isNonneg ((Poly.ofCoord x).addConst (-q))

def isAtMost (x : Coord) (q : Rat) : Goal := Scenario.isNonneg ((Poly.ofCoord x).neg.addConst q)

def loneInteger? (p : Poly) : Option Coord :=
  if p.isLinear then none
  else
    match p.coords with
    | [x] => if x.integral then some x else none
    | _ => none

def integerCases (a : Atom) (x : Coord) : List (List Goal) :=
  (Univariate.integerRanges ⟨univariate [] x a.poly, a.sense⟩).map fun (lo, hi) =>
    (lo.map fun n => isAtLeast x n).toList ++ (hi.map fun n => isAtMost x n).toList

/-! ## Real coordinates -/

def dropCoord (b : Scenario) (e : Eliminated) : Scenario :=
  { b with
    atoms := b.atoms.filter fun a => !a.poly.coords.contains e.coord
    apart := b.apart.filter fun p => !p.coords.contains e.coord
    eliminated := e :: b.eliminated }

def isAlone (e : Eliminated) : Bool :=
  (e.atoms.all fun a => a.poly.coords = [e.coord]) && e.apart.all fun p => p.coords = [e.coord]

def eliminationCost (e : Eliminated) : Nat :=
  let degree := ((e.atoms.map fun a => a.poly.degree e.coord) ++
    e.apart.map fun p => p.degree e.coord).foldl Nat.max 0
  let count := e.atoms.length + e.apart.length
  let isEquation := e.atoms.any fun a => a.sense = .zero
  degree * (if isEquation then count else count * count)

/-- The real coordinate to eliminate: one that occurs alone, or one of degree two at most. -/
def nextReal? (b : Scenario) : Option Eliminated :=
  let coords := ((b.atoms.flatMap fun a => a.poly.coords) ++ b.apart.flatMap Poly.coords).eraseDups
  let all := (coords.filter fun x => !x.integral).map (statementsOn b)
  match all.find? isAlone with
  | some e => some e
  | none =>
    match all.filter fun e =>
      Virtual.canEliminate e.coord (e.atoms.map Atom.poly ++ e.apart) with
    | [] => none
    | e :: es =>
      some (es.foldl (fun a c => if eliminationCost c < eliminationCost a then c else a) e)

def withoutReal (b : Scenario) (e : Eliminated) : List Scenario :=
  let rest := dropCoord b e
  if isAlone e then
    match restore ⟨[], true⟩ e with
    | some _ => [rest]
    | none => []
  else
    let statements := (e.atoms.map fun a =>
        (a.poly.coefficients e.coord, Virtual.Sign.ofSense a.sense)) ++
      e.apart.map fun p => (p.coefficients e.coord, Virtual.Sign.apart)
    (Virtual.eliminate (statements.length + 1) statements).map fun w =>
      { rest with todo := w.goals, splits := w.splits }

/-! ## Integer coordinates -/

def parts (x : Coord) (i : Interval) : List (List Goal) :=
  let two (middle : Int) : List (List Goal) :=
    let low := [isAtMost x middle]
    let high := [isAtLeast x (middle + 1)]
    if middle < 0 then [high, low] else [low, high]
  match i.lo, i.hi with
  | some l, some h =>
    if h.value - l.value ≤ 4 then
      (List.range ((h.value - l.value).floor + 1).toNat).map fun (k : Nat) =>
        [valueIs x (l.value + (k : Rat))]
    else if l.value < -1 && 1 < h.value then two 0
    else two ((l.value + h.value) / 2).floor
  | some l, none => two (if l.value < 8 then 16 else (4 * l.value).floor)
  | none, some h => two (if -8 < h.value then -16 else (4 * h.value).floor)
  | none, none => [[isAtLeast x (-16), isAtMost x 16], [isAtLeast x 17], [isAtMost x (-17)]]

def narrowest (box : Box) (xs : List Coord) : Option Coord :=
  let better (x y : Coord) : Bool :=
    match (box.get x).width?, (box.get y).width? with
    | some v, some w => v < w
    | some _, none => true
    | _, _ => false
  match xs.filter Coord.integral with
  | [] => none
  | x :: xs => some (xs.foldl (fun best y => if better y best then y else best) x)

/-! ## The search -/

/-- What is to be done about a scenario: it is decided, or one of several others has to hold. -/
inductive Move where
  | settle (o : Outcome Model)
  | branch (alternatives : List Scenario)

def Move.goals (b : Scenario) (alternatives : List (List Goal)) : Move :=
  .branch (alternatives.map fun goals => { b with todo := goals })

/-- The move for a scenario without products whose solution does not satisfy the conditions: two
divisions by zero of equal or of different numbers. -/
def resolveConflict (b : Scenario) (m : Assignment) : Move :=
  match conflict m b.byZero with
  | some (z, w) =>
    let difference := z.dividend.sub w.dividend
    .goals b [[Scenario.isZero difference, Scenario.isZero (z.value.sub w.value)],
      [.apart difference]]
  | none => .settle .unknown

/-- The move for a scenario with products in a box: known values, a real coordinate less, or a part
of an integer's interval. -/
def moveInBox (b : Scenario) (factors : List Coord) : Move :=
  match factors.filterMap fun x => (b.box.get x).value?.map (valueIs x) with
  | [] =>
    match nextReal? b, narrowest b.box factors with
    | some e, _ => .branch (withoutReal b e)
    | none, some x => .goals b (parts x (b.box.get x))
    | none, none => .settle .unknown
  | fixed => .goals b [fixed]

def moveOnProducts (b : Scenario) (m : Assignment) : Move :=
  let factors := (products b).flatten.eraseDups
  match b.atoms.findSome? fun a => (loneInteger? a.poly).map (a, ·) with
  | some (a, x) => .goals { b with atoms := b.atoms.filter (· ≠ a) } (integerCases a x)
  | none =>
    match b.atoms.findSome? (solvedFactor factors) with
    | some (e, g) => .branch [substitute b e g]
    | none =>
      if factors.isEmpty then resolveConflict b m
      else
        match b.box.narrowed b.fresh b.atoms with
        | none => .settle .impossible
        | some box => moveInBox { b with box := box } factors

/-- The model that a solution gives: the conditions have been evaluated in it, unless it has
irrational values and nothing is left to be decided. -/
def modelOf? (formula : List (Term .bool)) (b : Scenario) (m : Assignment) : Option Model :=
  match complete b m with
  | none => none
  | some c =>
    let found := model b c.values
    if (if c.isExact then found.satisfies formula else !isOpen b) then some found else none

def moveOn (formula : List (Term .bool)) (b : Scenario) (m : Assignment) : Move :=
  match modelOf? formula b m with
  | some found => .settle (.found found)
  | none =>
    match b.splits with
    | alternatives :: splits => .goals { b with splits := splits } alternatives
    | [] => moveOnProducts b m

def nextMove (formula : List (Term .bool)) (systems : Nat) (b : Scenario) : Move :=
  match b.todo with
  | g :: todo => .branch [((Scenario.take g).run { b with todo := todo }).2]
  | [] =>
    match Pruning.prune b with
    | none => .settle .impossible
    | some b =>
      if !b.todo.isEmpty then .branch [b]
      else
        match relaxedSolution systems b with
        | .impossible => .settle .impossible
        | .unknown => .settle .unknown
        | .found m => moveOn formula b m

def effort (b : Scenario) : Nat := if !b.todo.isEmpty then 1 else if b.splits.isEmpty then 10 else 2

/-- Decides a scenario in a search for a model of a formula, within a depth; the state is the effort
that is left. -/
def run (formula : List (Term .bool)) (systems : Nat) : Nat → Scenario → StateM Nat (Outcome Model)
  | 0, _ => return .unknown
  | fuel + 1, b => do
    let left ← get
    if left = 0 then return .unknown
    set (left - effort b)
    match nextMove formula systems b with
    | .settle o => return o
    | .branch alternatives => Outcome.firstM (run formula systems fuel) alternatives

def formulaSize (formula : List (Term .bool)) : Nat := formula.foldl (fun n t => n + t.size) 0

/-- A depth that is enough: every part of a formula is taken up at most twice on a way down. -/
def depth (formula : List (Term .bool)) : Nat := 32 * (formulaSize formula + 32)

def decideWithin (formula : List (Term .bool)) (systems limit : Nat) (b : Scenario) :
    Outcome Model :=
  ((run formula systems (depth formula) b).run limit).1

def small (bound : Rat) (b : Scenario) : Scenario :=
  let limits := (b.names.zipIdx.filter fun n => n.1.2 = .int).flatMap fun n =>
    let x : Coord := ⟨n.2, true⟩
    [isAtLeast x (-bound), isAtMost x bound]
  { b with todo := limits ++ b.todo }

/-- Looks for a model of conditions on some variables by a short search, then for one with small
integers, and at last by a long search. -/
def findModel (names : List (String × TermSort)) (formula : List (Term .bool)) : Outcome Model :=
  let b := Scenario.start names formula
  let short := decideWithin formula 0 (300 + 8 * formulaSize formula) b
  let small := ([8, 60, 1000] : List Rat).map fun bound _ =>
    (decideWithin formula 2000 8000 (small bound b)).inconclusive
  (small.foldl Outcome.orElse short).orElse fun _ => decideWithin formula 20000 200000 b

def decide : Decider := fun names formula => (findModel names formula).map (.ofModel formula)

end Search

end Branchwise
