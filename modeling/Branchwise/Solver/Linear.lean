import Branchwise.Solver.Simplex

/-!
# Linear systems

Decides a system of linear statements and gives a solution.  Equations are used up by substitution,
and the inequalities that are left are settled by pivoting with a few splits.  Where those do not
suffice, real coordinates are eliminated, and after them the integers.
-/

namespace Branchwise

namespace Linear

/-- The rest of a number after division by a modulus, at most half of it in size. -/
def nearRest (a : Int) (m : Int) : Int := a - m * ((2 * a + m) / (2 * m))

def freshIndex (atoms : List LinAtom) : Nat :=
  (LinAtom.coords atoms).foldl (fun n x => Nat.max n (x.index + 1)) 0

def smallestTerm : List (Coord × Rat) → Option (Coord × Rat)
  | [] => none
  | t :: ts => some (ts.foldl (fun m t => if t.2.num.natAbs < m.2.num.natAbs then t else m) t)

/-- What an equation gives for one of its coordinates: the real one, the one with a unit
coefficient, or the one with the smallest coefficient in terms of a new coordinate. -/
def solveFor (fresh : Nat) (f : Form) : Option (Coord × Form) :=
  match f.terms.find? fun t => !t.1.integral with
  | some (x, c) => some (x, (f.without x).scale (-1 / c))
  | none =>
    match smallestTerm f.terms with
    | none => none
    | some (x, c) =>
      if c.num.natAbs = 1 then some (x, (f.without x).scale (-1 / c))
      else
        let m : Int := c.num.natAbs + 1
        let sign : Rat := if c < 0 then -1 else 1
        let rest : Form := ⟨nearRest f.const.num m,
          ((f.without x).terms.map fun t => (t.1, ((nearRest t.2.num m : Int) : Rat))).filter
            fun t => t.2 ≠ 0⟩
        some (x, (rest.add ⟨0, [(⟨fresh, true⟩, -(m : Rat))]⟩).scale sign)

/-- The bounds that statements place on a coordinate from below, from above, and the others. -/
def bounds (x : Coord) (atoms : List LinAtom) : List LinAtom × List LinAtom × List LinAtom :=
  (atoms.filter fun a => 0 < a.form.coeff x, atoms.filter fun a => a.form.coeff x < 0,
    atoms.filter fun a => a.form.coeff x = 0)

/-- What a lower and an upper bound say together about the other coordinates.  The dark one demands
that an integer lies between them. -/
def shadow (x : Coord) (dark : Bool) (l u : LinAtom) : LinAtom :=
  let a := l.form.coeff x
  let b := -(u.form.coeff x)
  let f := (l.form.scale b).add (u.form.scale a)
  let f := if dark then f.add (.ofConst (-((a - 1) * (b - 1)))) else f
  ⟨f, if l.sense = .pos || u.sense = .pos then .pos else .nonneg⟩

def shadows (x : Coord) (dark : Bool) (ls us : List LinAtom) : List LinAtom :=
  ls.flatMap fun l => us.map fun u => shadow x dark l u

def limit (m : Assignment) (x : Coord) (a : LinAtom) : Rat :=
  -((a.form.without x).eval m) / a.form.coeff x

def greatest : List Rat → Option Rat
  | [] => none
  | q :: qs => some (qs.foldl greaterOf q)

def least : List Rat → Option Rat
  | [] => none
  | q :: qs => some (qs.foldl lesserOf q)

def pickInteger (m : Assignment) (x : Coord) (ls us : List LinAtom) : Rat :=
  let lo := (greatest (ls.map (limit m x))).map fun q => ((q.ceil : Int) : Rat)
  let hi := (least (us.map (limit m x))).map fun q => ((q.floor : Int) : Rat)
  let down : Rat := match hi with
    | some h => lesserOf h 0
    | none => 0
  match lo with
  | some l => greaterOf l down
  | none => down

/-- A real between the bounds: zero if it is there, an end that belongs, or a point inside. -/
def pickReal (m : Assignment) (x : Coord) (ls us : List LinAtom) : Rat :=
  let fits (q : Rat) : Bool := (ls ++ us).all fun a =>
    a.sense.holds ((a.form.without x).eval m + a.form.coeff x * q)
  let lo := greatest (ls.map (limit m x))
  let hi := least (us.map (limit m x))
  let candidates : List Rat := match lo, hi with
    | some l, some h => [0, l, h, (l + h) / 2]
    | some l, none => [0, l, l + 1]
    | none, some h => [0, h, h - 1]
    | none, none => [0]
  (candidates.find? fits).getD 0

def isExact (x : Coord) (ls us : List LinAtom) : Bool :=
  (ls.all fun a => a.form.coeff x = 1) || (us.all fun a => a.form.coeff x = -1)

/-- The coordinate to eliminate: a real one if there is one, then one whose elimination is exact,
and of those the one with the fewest combinations. -/
def pickCoord (atoms : List LinAtom) : Option Coord :=
  let cost (x : Coord) : Nat × Nat :=
    let (ls, us, _) := bounds x atoms
    (if !x.integral then 0 else if isExact x ls us then 1 else 2, ls.length * us.length)
  let better (a b : Nat × Nat) : Bool := a.1 < b.1 || (a.1 = b.1 && a.2 < b.2)
  match LinAtom.coords atoms with
  | [] => none
  | x :: xs => some (xs.foldl (fun (best : Coord × Nat × Nat) y =>
      let c := cost y
      if better c best.2 then (y, c) else best) (x, cost x)).1

/-- The equations that place a coordinate next to one of its lower bounds. -/
def splinters (x : Coord) (ls us : List LinAtom) : List LinAtom :=
  let m : Int := us.foldl (fun n u => max n (-(u.form.coeff x)).num) 1
  ls.flatMap fun l =>
    let a := (l.form.coeff x).num
    let last := ((m * a - a - m) / m).toNat
    (List.range (last + 1)).map fun i => ⟨l.form.add (.ofConst (-(i : Rat))), .zero⟩

def maxStatements : Nat := 600

def weight (atoms : List LinAtom) : Nat := 1 + atoms.length * atoms.length / 100

/-- Decides a system by elimination within a number of steps.  The state is the effort that is
left. -/
def eliminate : Nat → List LinAtom → StateM Nat (Outcome Assignment)
  | 0, _ => return .unknown
  | fuel + 1, atoms => do
    let left ← get
    if left = 0 then return .unknown
    set (left - weight atoms)
    match LinAtom.simplify atoms with
    | none => return .impossible
    | some atoms =>
      match atoms.find? fun a => a.sense = .zero with
      | some eq =>
        match solveFor (freshIndex atoms) eq.form with
        | none => return .impossible
        | some (x, g) =>
          return (← eliminate fuel (atoms.map fun a => a.subst x g)).map fun m =>
            (x.index, g.eval m) :: m
      | none =>
        if maxStatements < atoms.length then return .unknown
        else
          match pickCoord atoms with
          | none => return .found []
          | some x =>
            let (ls, us, rest) := bounds x atoms
            if !x.integral then
              return (← eliminate fuel (rest ++ shadows x false ls us)).map fun m =>
                (x.index, pickReal m x ls us) :: m
            else if isExact x ls us then
              return (← eliminate fuel (rest ++ shadows x false ls us)).map fun m =>
                (x.index, pickInteger m x ls us) :: m
            else
              match ← eliminate fuel (rest ++ shadows x true ls us) with
              | .found m => return .found ((x.index, pickInteger m x ls us) :: m)
              | .unknown => return .unknown
              | .impossible =>
                match ← eliminate fuel (rest ++ shadows x false ls us) with
                | .impossible => return .impossible
                | _ => Outcome.firstM (fun e => eliminate fuel (e :: atoms)) (splinters x ls us)

/-- A number of steps that is enough: each coordinate is eliminated once, and the coefficients of an
equation shrink by a third at least whenever a coordinate is added. -/
def steps (atoms : List LinAtom) : Nat := 128 * (atoms.length + (LinAtom.coords atoms).length + 1)

def maxElimination : Nat := 10000

/-- Decides inequalities: with a few splits, by elimination, and at last with many splits. -/
def settle (systems : Nat) (atoms : List LinAtom) : Outcome Assignment :=
  (Simplex.solve 24 100 atoms).orElse fun _ =>
    if systems ≤ 100 then .unknown
    else
      (((eliminate (steps atoms) atoms).run maxElimination).1).orElse fun _ =>
        Simplex.solve 400 systems atoms

/-- Looks at inequalities with a few splits; if those do not suffice, integers may get fractional
values. -/
def survey (atoms : List LinAtom) : Outcome Assignment :=
  (Simplex.solve 8 16 atoms).orElse fun _ => Simplex.relax atoms

/-- Decides a system of linear statements within a number of substitutions, its inequalities in a
given way. -/
def solveWithin (inequalities : List LinAtom → Outcome Assignment) :
    Nat → List LinAtom → Outcome Assignment
  | 0, _ => .unknown
  | fuel + 1, atoms =>
    match LinAtom.simplify atoms with
    | none => .impossible
    | some atoms =>
      match atoms.find? fun a => a.sense = .zero with
      | none => inequalities atoms
      | some eq =>
        match solveFor (freshIndex atoms) eq.form with
        | none => .impossible
        | some (x, g) =>
          (solveWithin inequalities fuel (atoms.map fun a => a.subst x g)).map fun m =>
            (x.index, g.eval m) :: m

/-- Decides a system together with forms that must not be zero.  A form that a solution makes zero
is made positive or negative.  The state is the number of systems that are left. -/
def solveApart (inequalities : List LinAtom → Outcome Assignment) (apart : List Form) :
    Nat → List LinAtom → StateM Nat (Outcome Assignment)
  | 0, _ => return .unknown
  | fuel + 1, atoms => do
    let left ← get
    if left = 0 then return .unknown
    set (left - 1)
    match solveWithin inequalities (steps atoms) atoms with
    | .found m =>
      match apart.find? fun f => f.eval m = 0 with
      | none => return .found m
      | some f =>
        Outcome.firstM (fun a => solveApart inequalities apart fuel (a :: atoms))
          [⟨f, .pos⟩, ⟨f.scale (-1), .pos⟩]
    | o => return o

/-- Decides a system together with forms that must not be zero, going through a number of systems at
most. -/
def decideApart (inequalities : List LinAtom → Outcome Assignment) (systems : Nat)
    (apart : List Form) (atoms : List LinAtom) : Outcome Assignment :=
  ((solveApart inequalities apart (apart.length + 1) atoms).run systems).1

/-- Decides a system together with forms that must not be zero, where `systems` bounds the effort.
-/
def solve (systems : Nat) (apart : List Form) (atoms : List LinAtom) : Outcome Assignment :=
  decideApart (settle systems) (200 + 4 * apart.length + systems) apart atoms

/-- Looks at a system together with forms that must not be zero; what is found may give integers
fractional values. -/
def explore (apart : List Form) (atoms : List LinAtom) : Outcome Assignment :=
  decideApart survey 50 apart atoms

end Linear

end Branchwise
