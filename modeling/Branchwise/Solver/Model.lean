import Branchwise.Logic.Term

/-!
# Models

A model gives the variables of some conditions values, and says what a division by zero gives.  A
decider looks for a model of conditions, and what it reports as exact has been shown to be one.
-/

namespace Branchwise

/-! ## Outcomes of a search -/

inductive Outcome (α : Type) where
  | found (a : α)
  | impossible
  | unknown
deriving Repr, Inhabited

namespace Outcome

variable {α β : Type}

def map (f : α → β) : Outcome α → Outcome β
  | found a => found (f a)
  | impossible => impossible
  | unknown => unknown

/-- The first thing found by a search among alternatives.  There is nothing only if every
alternative is shown to have nothing. -/
def firstM {m : Type → Type} [Monad m] (search : β → m (Outcome α)) : List β → m (Outcome α)
  | [] => return impossible
  | b :: bs => do
    match ← search b with
    | found a => return found a
    | impossible => firstM search bs
    | unknown =>
      match ← firstM search bs with
      | found a => return found a
      | _ => return unknown

def inconclusive : Outcome α → Outcome α
  | found a => found a
  | _ => unknown

/-- The outcome of a search, or of another one if that leaves something open. -/
def orElse (o : Outcome α) (other : Unit → Outcome α) : Outcome α :=
  match o with
  | unknown => other ()
  | o => o

end Outcome

/-! ## Models -/

/-- A solution: values of the variables, and of the divisions by zero. -/
structure Model where
  names : List (String × TermSort)
  /-- The values of the variables in order; a truth value is one or zero. -/
  values : List Rat
  intByZero : List (Rat × Rat)
  realByZero : List (Rat × Rat)
deriving Repr, Inhabited

namespace Model

/-- The value of a variable; variables of one name and different sorts are different. -/
def get (m : Model) (s : TermSort) (x : String) : Rat := (m.values[m.names.idxOf (x, s)]?).getD 0

def entry (table : List (Rat × Rat)) (q : Rat) : Rat :=
  match table.find? fun e => e.1 = q with
  | some e => e.2
  | none => 0

def valuation (m : Model) : Valuation where
  int x := (m.get .int x).floor
  real x := m.get .real x
  bool x := m.get .bool x != 0
  intByZero n := (entry m.intByZero n).floor
  realByZero q := entry m.realByZero q

def satisfies (m : Model) (formula : List (Term .bool)) : Bool :=
  formula.all fun t => t.eval m.valuation

end Model

/-! ## Solutions -/

/-- What is found for some conditions.  The values of a solution that is not exact are only near
those under which the conditions hold, which are irrational. -/
structure Solution (formula : List (Term .bool)) where
  model : Model
  isExact : Bool
  satisfies : isExact → model.satisfies formula

/-- A model that is evaluated to tell whether it is exact. -/
def Solution.ofModel (formula : List (Term .bool)) (m : Model) : Solution formula :=
  ⟨m, m.satisfies formula, id⟩

/-- Decides whether conditions on some variables have a common solution. -/
abbrev Decider :=
  List (String × TermSort) → (formula : List (Term .bool)) → Outcome (Solution formula)

end Branchwise
