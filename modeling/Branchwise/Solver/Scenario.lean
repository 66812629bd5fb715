import Branchwise.Logic.Term
import Branchwise.Solver.Box

/-!
# Scenarios of a search

A scenario is a system of statements on polynomials together with goals that are still to be turned
into such statements.  A goal with several cases becomes a split.  A division gets coordinates for
its quotient and its remainder.
-/

namespace Branchwise

inductive Goal where
  | holds (positive : Bool) (t : Term .bool)
  | atom (a : Atom)
  | apart (p : Poly)
  | equals {s : TermSort} (x : Coord) (t : Term s)
  | byZero (sort : TermSort) (dividend value : Poly)

structure ByZero where
  sort : TermSort
  dividend : Poly
  value : Poly

/-- A division that has its coordinates already; nothing remains of a division of reals. -/
structure Division where
  dividend : Poly
  divisor : Poly
  quotient : Poly
  remainder : Poly

structure NamedFactor where
  poly : Poly
  coord : Coord

/-- A coordinate that has been eliminated, with the statements that were left of it. -/
structure Eliminated where
  coord : Coord
  atoms : List Atom
  apart : List Poly

structure Scenario where
  /-- The variables; the number of a variable's coordinate is its place in the list. -/
  names : List (String × TermSort)
  fresh : Nat
  todo : List Goal
  splits : List (List (List Goal))
  atoms : List Atom
  apart : List Poly
  byZero : List ByZero
  divisions : List Division
  ratios : List Division
  namedFactors : List NamedFactor
  eliminated : List Eliminated
  box : Box

namespace Scenario

def newCoord (integral : Bool) : StateM Scenario Coord :=
  modifyGet fun b => (⟨b.fresh, integral⟩, { b with fresh := b.fresh + 1 })

def assume (goals : List Goal) : StateM Scenario Unit :=
  modify fun b => { b with todo := goals ++ b.todo }

def split (alternatives : List (List Goal)) : StateM Scenario Unit :=
  modify fun b => { b with splits := b.splits ++ [alternatives] }

def stateAtom (p : Poly) (s : Sense) : StateM Scenario Unit :=
  modify fun b => if b.atoms.contains ⟨p, s⟩ then b else { b with atoms := ⟨p, s⟩ :: b.atoms }

def isZero (p : Poly) : Goal := .atom ⟨p, .zero⟩

def isNonneg (p : Poly) : Goal := .atom ⟨p, .nonneg⟩

def isPos (p : Poly) : Goal := .atom ⟨p, .pos⟩

def coordOf (b : Scenario) (s : TermSort) (x : String) : Coord :=
  ⟨b.names.idxOf (x, s), s ≠ .real⟩

/-! ## Division -/

/-- The bounds on quotient and remainder for operands of known sign; the divisor is not zero.  The
remainder has the sign of the dividend, and neither result is larger than it. -/
def signCase (a b q r : Poly) (dividend divisor : Bool) : List Goal :=
  let size (p : Poly) (positive : Bool) : Poly := if positive then p else p.neg
  let m := size a dividend
  let n := size b divisor
  let rest := size r dividend
  let result := size q (dividend = divisor)
  [if dividend then isNonneg m else isPos m, isPos n, isNonneg rest,
    isPos (n.sub rest), isNonneg (m.sub rest), isNonneg result, isNonneg (m.sub result)]

/-- The cases of a division by zero: its value for a dividend without its sign. -/
def zeroCases (a q : Poly) : List (List Goal) :=
  [[isNonneg a, .byZero .int a q], [isPos a.neg, .byZero .int a.neg q.neg]]

/-- New coordinates for the quotient and the remainder of two polynomials, one of them not
constant. -/
def newDivision (a b : Poly) : StateM Scenario (Poly × Poly) := do
  let q := Poly.ofCoord (← newCoord true)
  let r := Poly.ofCoord (← newCoord true)
  match b.constant? with
  | some n =>
    assume [isZero ((q.scale n).add (r.sub a))]
    if n = 0 then split (zeroCases a q)
    else
      let size := Poly.ofConst (if n < 0 then -n else n)
      assume [isPos (size.sub r), isPos (size.add r)]
      split [[isNonneg a, isNonneg r], [isPos a.neg, isNonneg r.neg]]
  | none =>
    assume [isZero ((b.mul q).add (r.sub a))]
    split (signCase a b q r true true :: signCase a b q r true false :: signCase a b q r false true
      :: signCase a b q r false false :: (zeroCases a q).map (isZero b :: ·))
  return (q, r)

def divideInt (a b : Poly) : StateM Scenario (Poly × Poly) := do
  match a.constant?, b.constant?.filter (· ≠ 0) with
  | some m, some n =>
    let q := Valuation.zero.quot m.num n.num
    return (.ofConst q, .ofConst (m.num - n.num * q))
  | _, _ =>
    match (← get).divisions.find? fun d => d.dividend = a && d.divisor = b with
    | some d => return (d.quotient, d.remainder)
    | none =>
      let (q, r) ← newDivision a b
      modify fun s => { s with divisions := ⟨a, b, q, r⟩ :: s.divisions }
      return (q, r)

def newRatio (a b : Poly) : StateM Scenario Poly := do
  let q ← newCoord false
  let value := Poly.ofCoord q
  let quotient := isZero ((b.mul value).sub a)
  split [[isZero b, .byZero .real a value], [isPos b, quotient], [isPos b.neg, quotient]]
  return value

def divideReal (a b : Poly) : StateM Scenario Poly := do
  match b.constant?.filter (· ≠ 0) with
  | some n => return a.scale (1 / n)
  | none =>
    match (← get).ratios.find? fun d => d.dividend = a && d.divisor = b with
    | some d => return d.quotient
    | none =>
      let q ← newRatio a b
      modify fun s => { s with ratios := ⟨a, b, q, .ofConst 0⟩ :: s.ratios }
      return q

/-! ## Terms as polynomials -/

/-- The truth value of a term that has neither variables nor divisions. -/
def closed? : {s : TermSort} → Term s → Option s.Carrier
  | _, .var _ _ => none
  | _, .int n => some n
  | _, .real q => some q
  | _, .bool b => some b
  | _, .toReal t => (closed? t).map fun n : Int => (n : Rat)
  | _, .ite c t e => do
    if ← closed? c then closed? t else closed? e
  | _, .negInt t => (closed? t).map fun n : Int => -n
  | _, .negReal t => (closed? t).map fun q : Rat => -q
  | _, .intOp op a b => do return op.onInt (← closed? a) (← closed? b)
  | _, .realOp op a b => do return op.onRat (← closed? a) (← closed? b)
  | _, .quot _ _ => none
  | _, .rem _ _ => none
  | _, .ratio _ _ => none
  | _, .intRel r a b => do return r.onInt (← closed? a) (← closed? b)
  | _, .realRel r a b => do return r.onRat (← closed? a) (← closed? b)
  | _, .not t => (closed? t).map fun b : Bool => !b
  | _, .and a b => do return (← closed? a) && (← closed? b)
  | _, .or a b => do return (← closed? a) || (← closed? b)
  | _, .implies a b => do return !(← closed? a) || (← closed? b)
  | _, .iff a b => do return (← closed? a : Bool) == (← closed? b)

def indicator (t : Term .bool) : StateM Scenario Poly := do
  match closed? t with
  | some b => return .ofConst (if b then 1 else 0)
  | none =>
    let x := Poly.ofCoord (← newCoord true)
    assume [isNonneg x, isNonneg (x.neg.addConst 1)]
    split [[.holds true t, isZero (x.addConst (-1))], [.holds false t, isZero x]]
    return x

def choose {s : TermSort} (c : Term .bool) (t e : Term s) : StateM Scenario Poly := do
  let x ← newCoord (s ≠ .real)
  split [[.holds true c, .equals x t], [.holds false c, .equals x e]]
  return .ofCoord x

/-- A factor of a product of integers: a sum gets a coordinate of its own. -/
def factor (p : Poly) : StateM Scenario Poly := do
  if p.const = 0 && p.terms.length ≤ 1 then return p
  else
    match (← get).namedFactors.find? fun f => f.poly = p with
    | some f => return .ofCoord f.coord
    | none =>
      let x ← newCoord true
      modify fun b => { b with namedFactors := ⟨p, x⟩ :: b.namedFactors }
      assume [isZero ((Poly.ofCoord x).sub p)]
      return .ofCoord x

/-- The product of two polynomials.  Sums of several integers are not multiplied out, since more
is known about the factors of a product than about the terms of a sum. -/
def product (p q : Poly) : StateM Scenario Poly := do
  let coords := (p.coords ++ q.coords).eraseDups
  if p.terms.isEmpty || q.terms.isEmpty || coords.length ≤ 1 || coords.any fun x => !x.integral then
    return p.mul q
  else return (← factor p).mul (← factor q)

def combine (op : ArithOp) (p q : Poly) : StateM Scenario Poly :=
  match op with
  | .add => return p.add q
  | .sub => return p.sub q
  | .mul => product p q

def poly : {s : TermSort} → Term s → StateM Scenario Poly
  | s, .var _ x => do return .ofCoord ((← get).coordOf s x)
  | _, .int n => return .ofConst n
  | _, .real q => return .ofConst q
  | _, .bool b => return .ofConst (if b then 1 else 0)
  | _, .toReal t => poly t
  | _, .ite c t e =>
    match closed? c with
    | some true => poly t
    | some false => poly e
    | none =>
      match t, e with
      | .int 1, .int 0 =>
        match c with
        | .var _ x => poly (.var .bool x)
        | c => indicator c
      | t, e => choose c t e
  | _, .negInt t => do return (← poly t).neg
  | _, .negReal t => do return (← poly t).neg
  | _, .intOp op a b => do
    let p ← poly a
    let q ← poly b
    combine op p q
  | _, .realOp op a b => do
    let p ← poly a
    let q ← poly b
    combine op p q
  | _, .quot a b => do
    let p ← poly a
    let q ← poly b
    return (← divideInt p q).1
  | _, .rem a b => do
    let p ← poly a
    let q ← poly b
    return (← divideInt p q).2
  | _, .ratio a b => do
    let p ← poly a
    let q ← poly b
    divideReal p q
  | _, .intRel r a b => indicator (.intRel r a b)
  | _, .realRel r a b => indicator (.realRel r a b)
  | _, .not t => indicator (.not t)
  | _, .and a b => indicator (.and a b)
  | _, .or a b => indicator (.or a b)
  | _, .implies a b => indicator (.implies a b)
  | _, .iff a b => indicator (.iff a b)

def compare (r : Comparison) (p : Poly) : StateM Scenario Unit :=
  match r with
  | .eq => stateAtom p .zero
  | .ne => modify fun b => if b.apart.contains p then b else { b with apart := p :: b.apart }
  | .lt => stateAtom p.neg .pos
  | .le => stateAtom p.neg .nonneg
  | .gt => stateAtom p .pos
  | .ge => stateAtom p .nonneg

/-- Conditions of which one has to hold or not to hold for a condition to hold or not to hold. -/
def cases (positive : Bool) : Term .bool → List (Bool × Term .bool)
  | .not t => cases (!positive) t
  | .and a b => if positive then [(true, .and a b)] else cases false a ++ cases false b
  | .or a b => if positive then cases true a ++ cases true b else [(false, .or a b)]
  | .implies a b => if positive then cases false a ++ cases true b else [(false, .implies a b)]
  | t => [(positive, t)]

def firstMet (earlier : List Goal) : List (Bool × Term .bool) → List (List Goal)
  | [] => []
  | (positive, t) :: rest =>
    (.holds positive t :: earlier) :: firstMet (earlier ++ [.holds (!positive) t]) rest

def splitAmong (cases : List (Bool × Term .bool)) : StateM Scenario Unit :=
  split (firstMet [] cases)

def state (positive : Bool) : Term .bool → StateM Scenario Unit
  | .var _ x => do
    let p := Poly.ofCoord ((← get).coordOf .bool x)
    stateAtom (if positive then p.addConst (-1) else p) .zero
  | .bool b => if b = positive then pure () else stateAtom (.ofConst 1) .zero
  | .not t => assume [.holds (!positive) t]
  | .and a b =>
    if positive then assume [.holds true a, .holds true b] else splitAmong (cases false (.and a b))
  | .or a b =>
    if positive then splitAmong (cases true (.or a b)) else assume [.holds false a, .holds false b]
  | .implies a b =>
    if positive then splitAmong (cases true (.implies a b))
    else assume [.holds true a, .holds false b]
  | .iff a b =>
    split [[.holds true a, .holds positive b], [.holds false a, .holds (!positive) b]]
  | .ite c t e =>
    split [[.holds true c, .holds positive t], [.holds false c, .holds positive e]]
  | .intRel r a b => do
    compare (if positive then r else r.negate) ((← poly a).sub (← poly b))
  | .realRel r a b => do
    compare (if positive then r else r.negate) ((← poly a).sub (← poly b))

def take : Goal → StateM Scenario Unit
  | .holds positive t => state positive t
  | .atom a => stateAtom a.poly a.sense
  | .apart p => compare .ne p
  | .equals x t => do stateAtom ((← poly t).sub (.ofCoord x)) .zero
  | .byZero sort dividend value =>
    modify fun b => { b with byZero := ⟨sort, dividend, value⟩ :: b.byZero }

/-- The branch in which some conditions on some variables are to hold. -/
def start (names : List (String × TermSort)) (formula : List (Term .bool)) : Scenario where
  names := names
  fresh := names.length
  todo := formula.map (.holds true)
  splits := []
  atoms := (names.zipIdx.filter fun n => n.1.2 = .bool).flatMap fun n =>
    let p := Poly.ofCoord ⟨n.2, true⟩
    [⟨p, .nonneg⟩, ⟨p.neg.addConst 1, .nonneg⟩]
  apart := []
  byZero := []
  divisions := []
  ratios := []
  namedFactors := []
  eliminated := []
  box := #[]

end Scenario

end Branchwise
