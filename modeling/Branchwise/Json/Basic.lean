import Branchwise.Data.Table
import Branchwise.Number.Scalar

/-!
# JSON values

Units, settings and alias tables are stored as JSON.  The fields of an object keep their order, and
integers are kept apart from binary numbers.
-/

namespace Branchwise

inductive Json where
  | null
  | bool (b : Bool)
  | int (n : Int)
  | real (x : Binary64)
  | str (s : String)
  | arr (items : List Json)
  | obj (fields : List (String × Json))
deriving Repr, Inhabited

namespace Json

/-! ## Numbers -/

def ofScalar : Scalar → Json
  | .bool b => bool b
  | .int n => int n
  | .real x => real x

def scalar? : Json → Option Scalar
  | bool b => some (.bool b)
  | int n => some (.int n)
  | real x => some (.real x)
  | _ => none

/-! ## Equality -/

mutual

/-- Whether two values count as one key or as one member of a list.  Numbers are compared by value
across their kinds, and the order of the fields of an object does not matter. -/
def same : Json → Json → Bool
  | null, null => true
  | str s, str t => s = t
  | arr xs, arr ys => sameItems xs ys
  | obj fs, obj gs => fs.length = gs.length && sameFields fs gs
  | a, b =>
    match a.scalar?, b.scalar? with
    | some x, some y => x.same y
    | _, _ => false

def sameItems : List Json → List Json → Bool
  | [], [] => true
  | x :: xs, y :: ys => x.same y && sameItems xs ys
  | _, _ => false

def sameFields : List (String × Json) → List (String × Json) → Bool
  | [], _ => true
  | (k, x) :: fs, gs =>
    (match gs.find? fun g => g.1 = k with
      | some g => x.same g.2
      | none => false) && sameFields fs gs

end

instance : BEq Json := ⟨same⟩

def isNaN : Json → Bool
  | real x => x.isNaN
  | _ => false

/-- Whether two values are equal; what is no number is not even equal to itself. -/
def equals (a b : Json) : Bool := !a.isNaN && a == b

def isNull : Json → Bool
  | null => true
  | _ => false

/-! ## Parts -/

/-- Whether a value counts as missing: null, zero, false, or nothing inside. -/
def isVoid : Json → Bool
  | null => true
  | bool b => !b
  | int n => n == 0
  | real x => !(Scalar.real x).isTruthy
  | str s => s.isEmpty
  | arr xs => xs.isEmpty
  | obj fs => fs.isEmpty

/-- The first of two values that does not count as missing, else the second. -/
def orElse (a b : Json) : Json := if a.isVoid then b else a

def field? (j : Json) (key : String) : Option Json :=
  match j with
  | obj fields => (fields.find? fun f => f.1 = key).map Prod.snd
  | _ => none

def ofOption {α : Type} (f : α → Json) : Option α → Json
  | some a => f a
  | none => null

def nat (n : Nat) : Json := int n

def strs (xs : List String) : Json := arr (xs.map str)

def nats (ns : List Nat) : Json := arr (ns.map nat)

def pairs {α : Type} (f : α → Json) (t : Table Json α) : Json :=
  arr (t.entries.map fun (k, v) => arr [k, f v])

mutual

/-- A value as it stands in messages: quoted texts, `None`, `True` and `False`, and the items of
lists and objects separated by a comma and a blank. -/
def display : Json → String
  | null => "None"
  | bool b => if b then "True" else "False"
  | int n => toString n
  | real x => x.text
  | str s => Text.quote s
  | arr items => "[" ++ Text.join ", " (displayItems items) ++ "]"
  | obj fields => "\x7b" ++ Text.join ", " (displayFields fields) ++ "\x7d"

def displayItems : List Json → List String
  | [] => []
  | j :: js => j.display :: displayItems js

def displayFields : List (String × Json) → List String
  | [] => []
  | (k, j) :: fs => (Text.quote k ++ ": " ++ j.display) :: displayFields fs

end

/-- A value as a text: a text as it stands, everything else as in messages. -/
def plain : Json → String
  | str s => s
  | j => j.display

/-! ## Writing

All characters outside printable ASCII are escaped, those beyond the basic plane as a surrogate
pair. The indented form puts every item on a line of its own and writes empty containers on one. -/

def escapeChar (c : Char) : String :=
  if c = '"' then "\\\""
  else if c = '\\' then "\\\\"
  else if c = '\n' then "\\n"
  else if c = '\r' then "\\r"
  else if c = '\t' then "\\t"
  else if c.toNat = 12 then "\\f"
  else if c.toNat = 8 then "\\b"
  else if 32 ≤ c.toNat && c.toNat ≤ 126 then String.singleton c
  else if c.toNat < 0x10000 then "\\u" ++ Text.hex 4 c.toNat
  else
    let n := c.toNat - 0x10000
    "\\u" ++ Text.hex 4 (0xD800 + n / 0x400) ++ "\\u" ++ Text.hex 4 (0xDC00 + n % 0x400)

def writeString (s : String) : String :=
  "\"" ++ String.join (s.toList.map escapeChar) ++ "\""

def writeReal : Binary64 → String
  | .nan _ => "NaN"
  | .infinite negative => if negative then "-Infinity" else "Infinity"
  | x => x.text

mutual

def compact : Json → String
  | null => "null"
  | bool b => if b then "true" else "false"
  | int n => toString n
  | real x => writeReal x
  | str s => writeString s
  | arr items => "[" ++ Text.join ", " (compactItems items) ++ "]"
  | obj fields => "\x7b" ++ Text.join ", " (compactFields fields) ++ "\x7d"

def compactItems : List Json → List String
  | [] => []
  | j :: js => j.compact :: compactItems js

def compactFields : List (String × Json) → List String
  | [] => []
  | (k, j) :: fs => (writeString k ++ ": " ++ j.compact) :: compactFields fs

end

def bracket (opening closing : String) (depth : Nat) (items : List String) : String :=
  let indent (n : Nat) := "\n" ++ String.ofList (.replicate (2 * n) ' ')
  if items.isEmpty then opening ++ closing
  else opening ++ indent (depth + 1) ++ Text.join ("," ++ indent (depth + 1)) items
    ++ indent depth ++ closing

mutual

/-- A value with two blanks of indentation for every level below the given one. -/
def indented (depth : Nat) : Json → String
  | arr items => bracket "[" "]" depth (indentedItems depth items)
  | obj fields => bracket "\x7b" "\x7d" depth (indentedFields depth fields)
  | null => "null"
  | bool b => if b then "true" else "false"
  | int n => toString n
  | real x => writeReal x
  | str s => writeString s

def indentedItems (depth : Nat) : List Json → List String
  | [] => []
  | j :: js => j.indented (depth + 1) :: indentedItems depth js

def indentedFields (depth : Nat) : List (String × Json) → List String
  | [] => []
  | (k, j) :: fs =>
    (writeString k ++ ": " ++ j.indented (depth + 1)) :: indentedFields depth fs

end

def fieldName : Json → String
  | str s => s
  | j => j.compact

def pretty (j : Json) : String := j.indented 0

end Json

end Branchwise
