import Branchwise.Error

/-!
# Reading stored values

Stored values are kept as they are and read when they are used: as a key, a text, a number, or a
list of items.  A value of the wrong kind is an error then, and not before.  A missing field without
a default is an error that names it.
-/

namespace Branchwise

abbrev Decoder (α : Type) := Except Error α

namespace Json

/-! ## Fields -/

def need (j : Json) (key : String) : Decoder Json :=
  match j with
  | obj _ => match j.field? key with
    | some v => .ok v
    | none => .error (.missingField key)
  | _ => .error .mistyped

def fieldOr (j : Json) (key : String) (default : Json) : Decoder Json :=
  match j with
  | obj _ => .ok ((j.field? key).getD default)
  | _ => .error .notRecord

/-! ## Values -/

def isKey : Json → Bool
  | arr _ | obj _ => false
  | _ => true

def asKey (j : Json) : Decoder Json := if j.isKey then .ok j else .error .mistyped

def asText : Json → Decoder String
  | str s => .ok s
  | _ => .error .mistyped

/-- The spelling of a type: a text, or nothing for a value that counts as missing. -/
def spelling : Json → Decoder String
  | str s => .ok s
  | j => if j.isVoid then .ok "" else .error .mistyped

def textOrEmpty : Json → String
  | str s => s
  | _ => ""

/-- A text without the blanks around it; a value that counts as missing is empty. -/
def trimmed : Json → Decoder String
  | str s => .ok (Text.trim s)
  | j => if j.isVoid then .ok "" else .error .notRecord

def strip : Json → Decoder String
  | str s => .ok (Text.trim s)
  | _ => .error .notRecord

def asScalar (j : Json) : Decoder Scalar :=
  match j.scalar? with
  | some x => .ok x
  | none => .error .mistyped

def asBound : Json → Decoder (Option Scalar)
  | null => .ok none
  | j => j.asScalar.map some

def asInt : Json → Decoder Int
  | int n => .ok n
  | bool b => .ok (if b then 1 else 0)
  | _ => .error .mistyped

def toInt : Json → Decoder Int
  | str s =>
    match Number.decimalDigits? s.toList with
    | some (negative, digits) =>
      if Number.maxDecimalDigits < digits.length then .error (.longInteger (some digits.length))
      else
        let n : Int := ((Number.ofDigits? 10 digits).getD 0 : Nat)
        .ok (if negative then -n else n)
    | none => .error (.notInteger s)
  | real (.nan _) => .error .nanToInteger
  | real x =>
    match x.toRat? with
    | some r => .ok (if r < 0 then r.ceil else r.floor)
    | none => .error .overflow
  | j => j.asInt

/-- The items of a list, the keys of an object, or the characters of a text. -/
def elements : Json → Decoder (List Json)
  | arr items => .ok items
  | obj fields => .ok (fields.map fun f => str f.1)
  | str s => .ok (s.toList.map fun c => str (String.singleton c))
  | _ => .error .mistyped

/-- Texts one after another with a separator; only texts can be joined. -/
def joined (sep : String) (js : List Json) : Decoder String :=
  return Text.join sep (← js.mapM asText)

/-- Values in increasing order: texts or numbers, which cannot be mixed. -/
def sorted (js : List Json) : Decoder (List Json) :=
  if js.length ≤ 1 then .ok js
  else
    match js.mapM scalar?, js.mapM asText with
    | some xs, _ => .ok ((xs.mergeSort fun a b => !b.lt a).map ofScalar)
    | none, .ok texts => .ok ((texts.mergeSort fun a b => !(b < a)).map str)
    | none, .error e => .error e

mutual

def depth : Json → Nat
  | arr items => depthItems items + 1
  | obj fields => depthFields fields + 1
  | _ => 0

def depthItems : List Json → Nat
  | [] => 0
  | j :: js => Nat.max j.depth (depthItems js)

def depthFields : List (String × Json) → Nat
  | [] => 0
  | (_, j) :: fs => Nat.max j.depth (depthFields fs)

end

/-! ## Order

Numbers are ordered by value, texts by their characters, and lists by the first items in which they
differ.  Values of other kinds, or of two kinds, cannot be compared. -/

mutual

def ordered (strict : Bool) : Json → Json → Except Error Bool
  | str s, str t => .ok (if strict then s < t else !(t < s))
  | arr xs, arr ys => orderedItems strict xs ys
  | a, b =>
    match a.scalar?, b.scalar? with
    | some x, some y => .ok (if strict then x.lt y else x.le y)
    | _, _ => .error .mistyped

def orderedItems (strict : Bool) : List Json → List Json → Except Error Bool
  | [], [] => .ok !strict
  | [], _ :: _ => .ok true
  | _ :: _, [] => .ok false
  | x :: xs, y :: ys => if x == y then orderedItems strict xs ys else x.ordered strict y

end

def less (a b : Json) : Except Error Bool := a.ordered true b

def atMost (a b : Json) : Except Error Bool := a.ordered false b

def larger (a b : Json) : Except Error Json := return if ← a.less b then b else a

def smaller (a b : Json) : Except Error Json := return if ← b.less a then b else a

end Json

end Branchwise
