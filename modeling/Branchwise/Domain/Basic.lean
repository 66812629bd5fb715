import Branchwise.Guard.Parser
import Branchwise.Json.Decoder

/-!
# Domains of variables

A domain bounds the values of one variable: a least and a greatest value, a list of admitted values,
an exact value, each optional, and a guard text that holds besides.  What it is given by is kept as
it was stored, null for what is not given.
-/

namespace Branchwise

structure Domain where
  variableName : Json
  lower : Json
  upper : Json
  allowed : Option (List Json)
  exact : Json
  /-- A text that holds besides; a value that counts as missing says nothing. -/
  guard : Json
  source : Json
deriving Repr, Inhabited

inductive DomainKind where
  | minValue
  | maxValue
  | range
  | enumeration
  | exactValue
  | custom
deriving DecidableEq, Repr, Inhabited

def DomainKind.name : DomainKind → String
  | minValue => "MinValue"
  | maxValue => "MaxValue"
  | range => "Range"
  | enumeration => "Enumeration"
  | exactValue => "ExactValue"
  | custom => "Custom"

namespace Domain

def all (x source : Json) : Domain := ⟨x, .null, .null, none, .null, .null, source⟩

def range (x lo hi source : Json) : Domain := { all x source with lower := lo, upper := hi }

def atLeast (x lo source : Json) : Domain := { all x source with lower := lo }

def atMost (x hi source : Json) : Domain := { all x source with upper := hi }

def enumeration (x : Json) (values : List Json) (source : Json) : Domain :=
  { all x source with allowed := some values }

def exactly (x value source : Json) : Domain := { all x source with exact := value }

def custom (x guard source : Json) : Domain := { all x source with guard := guard }

def kind (d : Domain) : DomainKind :=
  if !d.exact.isNull then .exactValue
  else if d.allowed.isSome then .enumeration
  else
    match d.lower.isNull, d.upper.isNull with
    | false, false => .range
    | false, true => .minValue
    | true, false => .maxValue
    | true, true => .custom

/-- Whether the data admit no value at all: an empty list, or bounds that cross. -/
def isEmpty (d : Domain) : Except Error Bool :=
  match d.allowed with
  | some [] => .ok true
  | _ => if d.lower.isNull || d.upper.isNull then .ok false else d.upper.less d.lower

def ifGiven (bound : Json) (test : Json → Except Error Bool) : Except Error Bool :=
  if bound.isNull then .ok true else test bound

def lists (allowed : Option (List Json)) (v : Json) : Bool := allowed.all (·.contains v)

def admits (d : Domain) (v : Json) : Except Error Bool := do
  if !(d.exact.isNull || v.equals d.exact) then return false
  if !lists d.allowed v then return false
  if !(← ifGiven d.lower fun lo => return !(← v.less lo)) then return false
  ifGiven d.upper fun hi => return !(← hi.less v)

def dataText (d : Domain) : Except Error String := do
  match d.kind with
  | .exactValue => return "== " ++ (← d.exact.write)
  | .enumeration => return "One of: " ++ Text.join ", " (← (d.allowed.getD []).mapM Json.write)
  | .range => return (← d.lower.write) ++ " to " ++ (← d.upper.write)
  | .minValue => return ">= " ++ (← d.lower.write)
  | .maxValue => return "<= " ++ (← d.upper.write)
  | .custom => return ""

def describe (d : Domain) : Except Error Json := do
  match d.kind with
  | .custom => return d.guard.orElse (.str "unconstrained")
  | _ =>
    let text ← d.dataText
    return .str (if d.guard.isVoid then text else text ++ " and " ++ d.guard.plain)

def text (d : Domain) : Except Error String :=
  return d.variableName.plain ++ ": " ++ (← d.describe).plain

/-! ## Intersection -/

def tighter (pick : Json → Json → Except Error Json) (a b : Json) : Except Error Json :=
  if a.isNull then .ok b else if b.isNull then .ok a else pick a b

def commonValues : Option (List Json) → Option (List Json) → Option (List Json)
  | some a, some b => some (a.filter b.contains)
  | some a, none => some a
  | none, b => b

/-- The conjunction of two optional guards, which have to be texts if there are two; what counts as
missing does not count. -/
def bothGuards (a b : Json) : Except Error Json := do
  match [a, b].filter fun g => !g.isVoid with
  | [] => return .null
  | [g] => return g
  | gs =>
    let _ ← gs.mapM Json.strip
    return .str (Guard.conjoin (gs.map Json.textOrEmpty))

def sourceParts : Json → Except Error (List String)
  | .str s => .ok (Text.splitOnChar '+' s)
  | _ => .error .notRecord

def joinSources (a b : Json) : Except Error Json := do
  let parts := (← sourceParts a) ++ (← sourceParts b)
  return .str (Text.join "+" (parts.filter fun p => !p.isEmpty).eraseDups)

def inBounds (d : Domain) (v : Json) : Except Error Bool := do
  if !(← ifGiven d.lower fun lo => lo.atMost v) then return false
  ifGiven d.upper fun hi => v.atMost hi

/-- The same values with bounds taken into an exact value or a list, where there is one. -/
def normalize (d : Domain) : Except Error Domain := do
  let free := { d with lower := .null, upper := .null }
  if !d.exact.isNull then
    if (← d.inBounds d.exact) && lists d.allowed d.exact then return { free with allowed := none }
    return { free with exact := .null, allowed := some [] }
  match d.allowed with
  | some values => return { free with allowed := some (← values.filterM d.inBounds) }
  | none => return d

def clashes (a b : Domain) : Bool :=
  !a.exact.isNull && !b.exact.isNull && !a.exact.equals b.exact

def join (a b : Domain) : Except Error Domain := do
  return {
    variableName := a.variableName
    lower := ← tighter Json.larger a.lower b.lower
    upper := ← tighter Json.smaller a.upper b.upper
    allowed := if a.clashes b then some [] else commonValues a.allowed b.allowed
    exact := if a.clashes b then .null else if b.exact.isNull then a.exact else b.exact
    guard := ← bothGuards a.guard b.guard
    source := ← joinSources a.source b.source }

/-- The values that two domains, which have to be of one variable, both admit. -/
def intersect (a b : Domain) : Except Error Domain := do
  if !b.variableName.equals a.variableName then
    throw (.otherVariable a.variableName b.variableName)
  (← a.join b).normalize

/-- Puts a domain under the name of its variable, or intersects the one that is there with it. -/
def narrow (t : Table Json Domain) (d : Domain) : Except Error (Table Json Domain) :=
  match t.get? d.variableName with
  | some prev => return t.put d.variableName (← prev.intersect d)
  | none => return t.put d.variableName d

def merge (ds : List Domain) : Except Error (Table Json Domain) :=
  ds.foldlM (fun t d => do
    let _ ← d.variableName.asKey
    narrow t d) .empty

/-! ## Loop guards -/

def ceiling : Scalar → Except Error Int
  | .bool b => .ok (if b then 1 else 0)
  | .int n => .ok n
  | .real (.nan _) => .error .nanToInteger
  | .real x =>
    match x.toRat? with
    | some r => .ok r.ceil
    | none => .error .overflow

def floor : Scalar → Except Error Int
  | .bool b => .ok (if b then 1 else 0)
  | .int n => .ok n
  | .real (.nan _) => .error .nanToInteger
  | .real x =>
    match x.toRat? with
    | some r => .ok r.floor
    | none => .error .overflow

/-- The values a variable has while a loop guard `x op c` holds or has just failed: the first value
that fails the guard is kept, so that the loop can end.  A guard whose failing side has no nearest
value gives no bound. -/
def loopBound (x : Json) (op : BinaryOp) (c : Scalar) (integral : Bool) :
    Except Error (Option Domain) := do
  match op, integral with
  | .lt, true => return some (atMost x (.int (← ceiling c)) (.str "guard"))
  | .lt, false => return some (atMost x (.ofScalar c) (.str "guard"))
  | .gt, true => return some (atLeast x (.int (← floor c)) (.str "guard"))
  | .gt, false => return some (atLeast x (.ofScalar c) (.str "guard"))
  | .le, true => return some (atMost x (.int ((← floor c) + 1)) (.str "guard"))
  | .ge, true => return some (atLeast x (.int ((← ceiling c) - 1)) (.str "guard"))
  | _, _ => return none

end Domain

end Branchwise
