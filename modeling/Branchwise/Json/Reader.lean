import Branchwise.Json.Basic

/-!
# Reading JSON

A repeated field keeps its first place and takes its last value.  A surrogate that is not half of a
pair stands for the replacement character.  A text that is not JSON is reported with the number of
its characters that were left where reading stopped.
-/

namespace Branchwise.Json

/-- A value or the like with the rest of the text, or how much text was left at a fault. -/
abbrev Read (α : Type) := Except Nat (α × List Char)

def skipSpace (s : List Char) : List Char :=
  s.dropWhile fun c => c = ' ' || c = '\n' || c = '\r' || c = '\t'

def hex4? : List Char → Option (Nat × List Char)
  | a :: b :: c :: d :: r => do
    let a ← Text.hexValue? a
    let b ← Text.hexValue? b
    let c ← Text.hexValue? c
    let d ← Text.hexValue? d
    return (((a * 16 + b) * 16 + c) * 16 + d, r)
  | _ => none

/-- The character of a code unit, joined with a low surrogate that follows a high one. -/
def unitChar (n : Nat) (r : List Char) : Char × List Char :=
  if 0xD800 ≤ n && n < 0xDC00 then
    match r with
    | '\\' :: 'u' :: t =>
      match hex4? t with
      | some (m, rest) =>
        if 0xDC00 ≤ m && m < 0xE000 then
          (Char.ofNat (0x10000 + (n - 0xD800) * 0x400 + (m - 0xDC00)), rest)
        else (Char.ofNat 0xFFFD, r)
      | none => (Char.ofNat 0xFFFD, r)
    | _ => (Char.ofNat 0xFFFD, r)
  else if 0xDC00 ≤ n && n < 0xE000 then (Char.ofNat 0xFFFD, r)
  else (Char.ofNat n, r)

def escaped? : List Char → Option (Char × List Char)
  | '"' :: r => some ('"', r)
  | '\\' :: r => some ('\\', r)
  | '/' :: r => some ('/', r)
  | 'b' :: r => some (Char.ofNat 8, r)
  | 'f' :: r => some (Char.ofNat 12, r)
  | 'n' :: r => some ('\n', r)
  | 'r' :: r => some ('\r', r)
  | 't' :: r => some ('\t', r)
  | 'u' :: r => (hex4? r).map fun (n, rest) => unitChar n rest
  | _ => none

/-- The rest of a string after its opening quote; the characters read so far are in reverse. -/
def readString : Nat → List Char → List Char → Read String
  | 0, _, s => .error s.length
  | fuel + 1, acc, s =>
    match s with
    | [] => .error 0
    | '"' :: r => .ok (String.ofList acc.reverse, r)
    | '\\' :: r =>
      match escaped? r with
      | some (c, rest) => readString fuel (c :: acc) rest
      | none => .error s.length
    | c :: r => if c.toNat < 32 then .error s.length else readString fuel (c :: acc) r

def isAsciiDigit (c : Char) : Bool := 48 ≤ c.toNat && c.toNat ≤ 57

def readNumber (s : List Char) : Read Json :=
  let (sign, r) := match s with
    | '-' :: r => (['-'], r)
    | r => ([], r)
  match Text.after? "Infinity".toList r with
  | some rest => .ok (real (.infinite !sign.isEmpty), rest)
  | none =>
    let whole := match r with
      | '0' :: _ => ['0']
      | _ => r.takeWhile isAsciiDigit
    if whole.isEmpty then .error s.length
    else
      let r := r.drop whole.length
      let fraction := match r with
        | '.' :: t => let d := t.takeWhile isAsciiDigit; if d.isEmpty then [] else '.' :: d
        | _ => []
      let r := r.drop fraction.length
      let exponent := match r with
        | e :: t =>
          if e = 'e' || e = 'E' then
            let (mark, t) := match t with
              | '+' :: u => (['+'], u)
              | '-' :: u => (['-'], u)
              | u => ([], u)
            let d := t.takeWhile isAsciiDigit
            if d.isEmpty then [] else e :: (mark ++ d)
          else []
        | [] => []
      let rest := r.drop exponent.length
      if fraction.isEmpty && exponent.isEmpty then
        let n : Int := ((Number.ofDigits? 10 whole).getD 0 : Nat)
        .ok (int (if sign.isEmpty then n else -n), rest)
      else
        match Number.real? (sign ++ whole ++ fraction ++ exponent) with
        | some x => .ok (real x, rest)
        | none => .error s.length

mutual

def readValue : Nat → List Char → Read Json
  | 0, s => .error s.length
  | fuel + 1, s =>
    let s := skipSpace s
    match s with
    | '\x7b' :: r =>
      match skipSpace r with
      | '\x7d' :: rest => .ok (obj [], rest)
      | r => readFields fuel Table.empty r
    | '[' :: r =>
      match skipSpace r with
      | ']' :: rest => .ok (arr [], rest)
      | r => readItems fuel [] r
    | '"' :: r => (readString (r.length + 1) [] r).map fun (t, rest) => (str t, rest)
    | 't' :: 'r' :: 'u' :: 'e' :: r => .ok (bool true, r)
    | 'f' :: 'a' :: 'l' :: 's' :: 'e' :: r => .ok (bool false, r)
    | 'n' :: 'u' :: 'l' :: 'l' :: r => .ok (null, r)
    | 'N' :: 'a' :: 'N' :: r => .ok (real (.nan 0), r)
    | _ => readNumber s

/-- The items of an array after its opening bracket; those read so far are in reverse. -/
def readItems : Nat → List Json → List Char → Read Json
  | 0, _, s => .error s.length
  | fuel + 1, acc, s =>
    match readValue fuel s with
    | .error n => .error n
    | .ok (j, rest) =>
      match skipSpace rest with
      | ',' :: r => readItems fuel (j :: acc) r
      | ']' :: r => .ok (arr (j :: acc).reverse, r)
      | r => .error r.length

def readFields : Nat → Table String Json → List Char → Read Json
  | 0, _, s => .error s.length
  | fuel + 1, acc, s =>
    match skipSpace s with
    | '"' :: r =>
      match readString (r.length + 1) [] r with
      | .error n => .error n
      | .ok (key, rest) =>
        match skipSpace rest with
        | ':' :: r =>
          match readValue fuel r with
          | .error n => .error n
          | .ok (j, rest) =>
            match skipSpace rest with
            | ',' :: r => readFields fuel (acc.put key j) r
            | '\x7d' :: r => .ok (obj (acc.put key j).entries, r)
            | r => .error r.length
        | r => .error r.length
    | r => .error r.length

end

mutual

/-- A value as it comes back when it is written and read: all that is no number is one and the
same. -/
def reread : Json → Json
  | real (.nan _) => real (.nan 0)
  | arr items => arr (rereadItems items)
  | obj fields => obj (rereadFields fields)
  | j => j

def rereadItems : List Json → List Json
  | [] => []
  | j :: js => j.reread :: rereadItems js

def rereadFields : List (String × Json) → List (String × Json)
  | [] => []
  | (k, j) :: fs => (k, j.reread) :: rereadFields fs

end

/-- The value that a whole text is, or the number of characters in front of a fault. -/
def parse (text : String) : Except Nat Json :=
  let s := text.toList
  match readValue (s.length + 1) s with
  | .error left => .error (s.length - left)
  | .ok (j, rest) =>
    match skipSpace rest with
    | [] => .ok j
    | r => .error (s.length - r.length)

end Branchwise.Json
