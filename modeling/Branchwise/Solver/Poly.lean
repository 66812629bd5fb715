/-!
# Linear forms and polynomials

Both have rational coefficients over coordinates, some of which are integers; a statement says that
a form is zero, not negative, or positive.  A product of coordinates can be taken for a coordinate
of its own, which turns a polynomial into a linear form.
-/

namespace Branchwise

/-! ## Linear forms -/

/-- An unknown of a system: its number, and whether its value is an integer. -/
structure Coord where
  index : Nat
  integral : Bool
deriving DecidableEq, Repr, Inhabited

/-- Values of coordinates by their numbers; the first entry of a number counts, and zero is the
value of one without an entry. -/
abbrev Assignment := List (Nat × Rat)

def Assignment.get (m : Assignment) (x : Coord) : Rat :=
  match m.find? fun e => e.1 = x.index with
  | some e => e.2
  | none => 0

/-- A constant and the coefficients of some coordinates, in order of their numbers and never zero.
-/
structure Form where
  const : Rat
  terms : List (Coord × Rat)
deriving DecidableEq, Repr, Inhabited

namespace Form

def ofConst (c : Rat) : Form := ⟨c, []⟩

def addTerm (x : Coord) (c : Rat) : List (Coord × Rat) → List (Coord × Rat)
  | [] => if c = 0 then [] else [(x, c)]
  | (y, d) :: ts =>
    if x.index < y.index then (if c = 0 then (y, d) :: ts else (x, c) :: (y, d) :: ts)
    else if x = y then (if c + d = 0 then ts else (y, c + d) :: ts)
    else (y, d) :: addTerm x c ts

def ofCoord (x : Coord) : Form := ⟨0, [(x, 1)]⟩

def add (f g : Form) : Form :=
  ⟨f.const + g.const, f.terms.foldl (fun ts t => addTerm t.1 t.2 ts) g.terms⟩

def scale (c : Rat) (f : Form) : Form :=
  if c = 0 then ofConst 0 else ⟨c * f.const, f.terms.map fun t => (t.1, c * t.2)⟩

def coeff (f : Form) (x : Coord) : Rat :=
  match f.terms.find? fun t => t.1 = x with
  | some t => t.2
  | none => 0

def without (f : Form) (x : Coord) : Form := ⟨f.const, f.terms.filter fun t => t.1 ≠ x⟩

def subst (f : Form) (x : Coord) (g : Form) : Form :=
  let c := f.coeff x
  if c = 0 then f else (f.without x).add (g.scale c)

def eval (m : Assignment) (f : Form) : Rat :=
  f.terms.foldl (fun s t => s + t.2 * m.get t.1) f.const

def coords (f : Form) : List Coord := f.terms.map Prod.fst

def allIntegral (f : Form) : Bool := f.terms.all fun t => t.1.integral

/-- A factor that turns the coefficients into integers without a common divisor. -/
def integerFactor (f : Form) : Rat :=
  let den := f.terms.foldl (fun n t => Nat.lcm n t.2.den) 1
  let gcd := f.terms.foldl (fun n t => Nat.gcd n (t.2 * (den : Rat)).num.natAbs) 0
  if gcd = 0 then 1 else (den : Rat) / (gcd : Rat)

end Form

inductive Sense where
  | zero
  | nonneg
  | pos
deriving DecidableEq, Repr, Inhabited

namespace Sense

def holds : Sense → Rat → Bool
  | zero, q => q == 0
  | nonneg, q => 0 ≤ q
  | pos, q => 0 < q

end Sense

structure LinAtom where
  form : Form
  sense : Sense
deriving DecidableEq, Repr, Inhabited

namespace LinAtom

def subst (a : LinAtom) (x : Coord) (g : Form) : LinAtom := ⟨a.form.subst x g, a.sense⟩

/-- The statement with integer coefficients and the tightest integer constant, for a form over
integer coordinates; `none` if no integers satisfy it. -/
def tighten (a : LinAtom) : Option LinAtom :=
  let f := a.form.scale a.form.integerFactor
  match a.sense with
  | .zero => if f.const.den = 1 then some ⟨f, .zero⟩ else none
  | .nonneg => some ⟨{ f with const := f.const.floor }, .nonneg⟩
  | .pos => some ⟨{ f with const := f.const.ceil - 1 }, .nonneg⟩

/-- The statement scaled so that its first coefficient is one or minus one. -/
def unitLead (a : LinAtom) : LinAtom :=
  match a.form.terms with
  | [] => a
  | (_, c) :: _ => ⟨a.form.scale (1 / (if c < 0 then -c else c)), a.sense⟩

/-- Adds a statement to others; of two on the same terms only the stronger is kept. -/
def insert (a : LinAtom) : List LinAtom → List LinAtom
  | [] => [a]
  | b :: bs =>
    if a.form.terms = b.form.terms && a.sense = b.sense && a.sense != .zero then
      (if a.form.const < b.form.const then a :: bs else b :: bs)
    else if a = b then b :: bs
    else b :: insert a bs

/-- The statements in normal form, without those that always hold; `none` if one never does. -/
def simplify (atoms : List LinAtom) : Option (List LinAtom) :=
  atoms.foldlM (fun acc a =>
    if a.form.terms.isEmpty then (if a.sense.holds a.form.const then some acc else none)
    else if a.form.allIntegral then (a.tighten).map fun a => insert a acc
    else some (insert a.unitLead acc)) []

def coords (atoms : List LinAtom) : List Coord := (atoms.flatMap fun a => a.form.coords).eraseDups

end LinAtom

/-! ## Polynomials -/

abbrev Monomial := List Coord

/-- A constant and the coefficients of some products, never zero. -/
structure Poly where
  const : Rat
  terms : List (Monomial × Rat)
deriving DecidableEq, Repr, Inhabited

namespace Poly

def ofConst (c : Rat) : Poly := ⟨c, []⟩

def ofCoord (x : Coord) : Poly := ⟨0, [([x], 1)]⟩

def addTerm (p : Monomial) (c : Rat) : List (Monomial × Rat) → List (Monomial × Rat)
  | [] => if c = 0 then [] else [(p, c)]
  | (r, d) :: ts =>
    if p = r then (if c + d = 0 then ts else (r, c + d) :: ts) else (r, d) :: addTerm p c ts

def add (p q : Poly) : Poly :=
  ⟨p.const + q.const, q.terms.foldl (fun ts t => addTerm t.1 t.2 ts) p.terms⟩

def scale (c : Rat) (p : Poly) : Poly :=
  if c = 0 then ofConst 0 else ⟨c * p.const, p.terms.map fun t => (t.1, c * t.2)⟩

def neg (p : Poly) : Poly := p.scale (-1)

def sub (p q : Poly) : Poly := p.add q.neg

def addConst (p : Poly) (c : Rat) : Poly := { p with const := p.const + c }

def insertFactor (x : Coord) : Monomial → Monomial
  | [] => [x]
  | y :: ys => if x.index ≤ y.index then x :: y :: ys else y :: insertFactor x ys

def mulMonomial (a b : Monomial) : Monomial := a.foldl (fun m x => insertFactor x m) b

def mulTerm (m : Monomial) (c : Rat) (p : Poly) : Poly :=
  let head : Poly := ⟨0, if p.const * c = 0 then [] else [(m, p.const * c)]⟩
  p.terms.foldl (fun q t => q.add ⟨0, [(mulMonomial m t.1, c * t.2)]⟩) head

def mul (p q : Poly) : Poly :=
  p.terms.foldl (fun r t => r.add (q.mulTerm t.1 t.2)) (q.scale p.const)

def constant? (p : Poly) : Option Rat := if p.terms.isEmpty then some p.const else none

def evalMonomial (m : Assignment) (p : Monomial) : Rat := p.foldl (fun q x => q * m.get x) 1

def eval (m : Assignment) (p : Poly) : Rat :=
  p.terms.foldl (fun s t => s + t.2 * evalMonomial m t.1) p.const

def products (p : Poly) : List Monomial := (p.terms.map Prod.fst).filter fun m => 1 < m.length

def isLinear (p : Poly) : Bool := p.products.isEmpty

/-- What is left of a polynomial without a coordinate on its own. -/
def without (p : Poly) (x : Coord) : Poly := { p with terms := p.terms.filter fun t => t.1 ≠ [x] }

/-- The product of polynomials that stand for the factors of a product. -/
def expand (f : Coord → Poly) : Monomial → Poly
  | [] => ofConst 1
  | x :: xs => (f x).mul (expand f xs)

def subst (p : Poly) (x : Coord) (g : Poly) : Poly :=
  p.terms.foldl (fun r t =>
    if t.1.contains x then r.add ((expand (fun y => if y = x then g else ofCoord y) t.1).scale t.2)
    else r.add ⟨0, [t]⟩) (ofConst p.const)

def degree (p : Poly) (x : Coord) : Nat :=
  p.terms.foldl (fun d t => Nat.max d (t.1.count x)) 0

def coefficient (p : Poly) (x : Coord) (k : Nat) : Poly :=
  let parts := (p.terms.filter fun t => t.1.count x = k).map fun t => (t.1.filter (· ≠ x), t.2)
  parts.foldl (fun q t => if t.1.isEmpty then q.addConst t.2 else q.add ⟨0, [t]⟩)
    (ofConst (if k = 0 then p.const else 0))

def coefficients (p : Poly) (x : Coord) : List Poly :=
  (List.range (p.degree x + 1)).map (p.coefficient x)

def coords (p : Poly) : List Coord := (p.terms.flatMap Prod.fst).eraseDups

/-- The linear form in which each product is a coordinate, given by a function. -/
def toForm (f : Monomial → Coord) (p : Poly) : Form :=
  p.terms.foldl (fun g t =>
    let x := match t.1 with
      | [x] => x
      | m => f m
    g.add ⟨0, [(x, t.2)]⟩) (.ofConst p.const)

end Poly

structure Atom where
  poly : Poly
  sense : Sense
deriving DecidableEq, Repr, Inhabited

end Branchwise
