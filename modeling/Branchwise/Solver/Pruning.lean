import Branchwise.Solver.Difference
import Branchwise.Solver.Scenario

/-!
# Pruning splits

The bounds on the coordinates of a scenario tell of some conditions whether they hold.  An
alternative of a split with a condition that does not hold is dropped; a split with one alternative
left is no split any more, and one with an alternative that holds anyway is not needed.  Coordinates
that exclude each other need room for all of them.
-/

namespace Branchwise

namespace Interval

def anyTruth : Interval := ⟨some ⟨0, false⟩, some ⟨1, false⟩⟩

def ofTruth (b : Bool) : Interval := point (if b then 1 else 0)

def truth? (i : Interval) : Option Bool := i.value?.map (· != 0)

def ofTruth? : Option Bool → Interval
  | some b => ofTruth b
  | none => anyTruth

def isPos? (i : Interval) : Option Bool :=
  if i.lo.any fun l => 0 < l.value || (l.value = 0 && l.strict) then some true
  else if i.hi.any fun h => h.value ≤ 0 then some false
  else none

def isZero? (i : Interval) : Option Bool :=
  if i.value? = some 0 then some true else if i.excludesZero then some false else none

/-- Whether a comparison with zero holds for all numbers, or for none. -/
def compares? (r : Comparison) (i : Interval) : Option Bool :=
  match r with
  | .eq => i.isZero?
  | .ne => i.isZero?.map (!·)
  | .gt => i.isPos?
  | .le => i.isPos?.map (!·)
  | .lt => i.neg.isPos?
  | .ge => i.neg.isPos?.map (!·)

def hull (a b : Interval) : Interval :=
  ⟨match a.lo, b.lo with
    | some x, some y => some (if x.value < y.value || (x.value = y.value && y.strict) then x else y)
    | _, _ => none, match a.hi, b.hi with
    | some x, some y => some (if y.value < x.value || (x.value = y.value && y.strict) then x else y)
    | _, _ => none⟩

end Interval

namespace Pruning

def both : Option Bool → Option Bool → Option Bool
  | some false, _ | _, some false => some false
  | some true, some true => some true
  | _, _ => none

def either (a b : Option Bool) : Option Bool := (both (a.map (!·)) (b.map (!·))).map (!·)

def range (b : Scenario) (box : Box) : {s : TermSort} → Term s → Interval
  | s, .var _ x => box.get (b.coordOf s x)
  | _, .int n => .point n
  | _, .real q => .point q
  | _, .bool t => .ofTruth t
  | _, .toReal t => range b box t
  | _, .ite c t e =>
    match (range b box c).truth? with
    | some true => range b box t
    | some false => range b box e
    | none => (range b box t).hull (range b box e)
  | _, .negInt t => (range b box t).neg
  | _, .negReal t => (range b box t).neg
  | _, .intOp op x y => combine op (range b box x) (range b box y)
  | _, .realOp op x y => combine op (range b box x) (range b box y)
  | _, .quot _ _ => .full
  | _, .rem _ _ => .full
  | _, .ratio _ _ => .full
  | _, .intRel r x y => .ofTruth? (((range b box x).add (range b box y).neg).compares? r)
  | _, .realRel r x y => .ofTruth? (((range b box x).add (range b box y).neg).compares? r)
  | _, .not t => .ofTruth? ((range b box t).truth?.map (!·))
  | _, .and x y => .ofTruth? (both (range b box x).truth? (range b box y).truth?)
  | _, .or x y => .ofTruth? (either (range b box x).truth? (range b box y).truth?)
  | _, .implies x y =>
    .ofTruth? (either ((range b box x).truth?.map (!·)) (range b box y).truth?)
  | _, .iff x y =>
    .ofTruth? (match (range b box x).truth?, (range b box y).truth? with
      | some p, some q => some (p == q)
      | _, _ => none)
where
  combine (op : ArithOp) (i j : Interval) : Interval :=
    match op with
    | .add => i.add j
    | .sub => i.add j.neg
    | .mul => i.mul j

def polyRange (box : Box) (p : Poly) : Interval :=
  p.terms.foldl (fun i t => i.add ((box.product (Box.powers t.1)).scale t.2)) (.point p.const)

/-- Whether a statement holds or does not hold, as far as that is known. -/
def atomHolds? (box : Box) (a : Atom) : Option Bool :=
  (polyRange box a.poly).compares? (match a.sense with
    | .zero => .eq
    | .nonneg => .ge
    | .pos => .gt)

def goalHolds? (b : Scenario) (box : Box) : Goal → Option Bool
  | .holds positive t => (range b box t).truth?.map (· == positive)
  | .atom a => atomHolds? box a
  | .apart p => (atomHolds? box ⟨p, .zero⟩).map (!·)
  | _ => none

inductive Rest where
  | met
  | split (alternatives : List (List Goal))

def pruneSplit (b : Scenario) (box : Box) (alternatives : List (List Goal)) : Rest :=
  let judged := alternatives.map fun goals => (goals, goals.map (goalHolds? b box))
  if judged.any fun j => j.2.all (· = some true) then .met
  else .split ((judged.filter fun j => !j.2.contains (some false)).map Prod.fst)

/-! ## Sequences -/

def stated (b : Scenario) (g : Goal) : Goal :=
  match g with
  | .holds positive (.intRel r x y) => single (.holds positive (.intRel r x y))
  | .holds positive (.realRel r x y) => single (.holds positive (.realRel r x y))
  | g => g
where
  single (g : Goal) : Goal :=
    let c := ((Scenario.take g).run { b with todo := [], splits := [], atoms := [], apart := [] }).2
    if c.fresh ≠ b.fresh then g
    else
      match c.todo, c.splits, c.atoms, c.apart with
      | [], [], [a], [] => .atom a
      | [], [], [], [p] => .apart p
      | _, _, _, _ => g

def order? : Goal → Option Difference
  | .atom a => Difference.order? a
  | _ => none

/-- The two coordinates that a polynomial tells apart, if it is their difference. -/
def pair? (p : Poly) : Option (Coord × Coord) :=
  match p.terms with
  | [([x], c), ([y], d)] => if p.const = 0 && c + d = 0 then some (x, y) else none
  | _ => none

/-- Two coordinates of which one lies before the other, in either order. -/
def exclusion? (alternatives : List (List Goal)) : Option (Difference × Difference) :=
  match alternatives with
  | [left, right] =>
    (left.filterMap order?).findSome? fun p =>
      (right.filterMap order?).findSome? fun q =>
        if p.first = q.second && p.second = q.first then some (p, q) else none
  | _ => none

def exclusions (b : Scenario) : List (Difference × Difference) :=
  let apart (x y : Coord) : Difference × Difference :=
    let distance := if x.integral && y.integral then 1 else 0
    (⟨x, y, distance⟩, ⟨y, x, distance⟩)
  (b.apart.filterMap pair?).map (fun (x, y) => apart x y) ++ b.splits.filterMap exclusion?

def givenValue? (x : Coord) (goals : List Goal) : Option Rat :=
  goals.findSome? fun g =>
    match g with
    | .atom ⟨⟨q, [([y], c)]⟩, .zero⟩ => if x = y then some (-q / c) else none
    | _ => none

def values? (b : Scenario) (box : Box) (x : Coord) : Option (List Rat) :=
  let i := box.get x
  match i.value?, b.splits.findSome? fun alternatives => alternatives.mapM (givenValue? x) with
  | some q, _ => some [q]
  | none, some qs => some qs
  | none, none =>
    match i.lo, i.width? with
    | some l, some w =>
      if x.integral && w ≤ 100 then
        some ((List.range (w.floor.toNat + 1)).map fun (k : Nat) => l.value + (k : Rat))
      else none
    | _, _ => none

/-- Whether coordinates that are all different have fewer values than there are of them. -/
def isShort (b : Scenario) (box : Box) (xs : List Coord) : Bool :=
  let known := xs.filterMap (values? b box)
  known.flatten.eraseDups.length < known.length

def isCrowded (b : Scenario) (box : Box) : Bool :=
  let pairs := exclusions b
  let coords := (pairs.flatMap fun (p, _) => [p.first, p.second]).eraseDups
  if coords.length < 3 then false
  else
    let d := pairs.foldl (fun d (p, q) => d.exclude p q) (∅ : Distances)
    let d := (b.atoms.filterMap Difference.order?).foldl Distances.order d
    coords.any fun x =>
      let xs := d.sequence (x :: coords.filter (· ≠ x))
      d.isCrowded box xs || isShort b box xs

/-! ## Scenarios -/

def maxPasses : Nat := 3

/-- The bounds that the linear statements of a scenario give; `none` if they leave nothing. -/
def bounds? (b : Scenario) : Option Box :=
  Box.narrowAll (b.atoms.filter fun a => a.poly.isLinear) maxPasses
    (b.box ++ Box.full (b.fresh - b.box.size))

/-- Adds what is left of a split to a scenario; `none` if that is nothing. -/
def keepSplit (box : Box) (b : Scenario) (alternatives : List (List Goal)) : Option Scenario :=
  match pruneSplit b box alternatives with
  | .met => some b
  | .split [] => none
  | .split [goals] => some { b with todo := b.todo ++ goals }
  | .split rest => some { b with splits := b.splits ++ [rest] }

/-- The scenario without the alternatives that cannot hold; `none` if a split has no other. -/
def prune (b : Scenario) : Option Scenario :=
  if b.splits.isEmpty && b.apart.length < 3 then some b
  else
    match bounds? b with
    | none => none
    | some box =>
      let b := { b with splits := b.splits.map fun alternatives =>
        alternatives.map fun goals => goals.map (stated b) }
      if isCrowded b box then none
      else b.splits.foldlM (keepSplit box) { b with splits := [] }

end Pruning

end Branchwise
