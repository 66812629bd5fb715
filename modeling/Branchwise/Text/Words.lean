import Branchwise.Text.Classes

/-!
# Blank-separated text

Trimming, splitting and joining of texts, where what separates is a run of blanks.
-/

namespace Branchwise.Text

def trimChars (cs : List Char) : List Char :=
  ((cs.dropWhile isBlank).reverse.dropWhile isBlank).reverse

def trim (s : String) : String := String.ofList (trimChars s.toList)

def isAllBlank (s : String) : Bool := s.toList.all isBlank

def runs (keep : Char → Bool) (cs : List Char) : List (List Char) :=
  let last := cs.foldr (fun c (acc : List Char × List (List Char)) =>
    if keep c then (c :: acc.1, acc.2)
    else ([], if acc.1.isEmpty then acc.2 else acc.1 :: acc.2)) ([], [])
  if last.1.isEmpty then last.2 else last.1 :: last.2

def words (s : String) : List String :=
  (runs (fun c => !isBlank c) s.toList).map String.ofList

/-- The parts of a text between the occurrences of one character; at least one part. -/
def splitChars (sep : Char) : List Char → List (List Char)
  | [] => [[]]
  | c :: r =>
    if c = sep then [] :: splitChars sep r
    else
      match splitChars sep r with
      | [] => [[c]]
      | p :: ps => (c :: p) :: ps

/-- The parts of a text between the occurrences of one character; at least one part. -/
def splitOnChar (sep : Char) (s : String) : List String :=
  (splitChars sep s.toList).map String.ofList

def join (sep : String) (parts : List String) : String := sep.intercalate parts

def after? : List Char → List Char → Option (List Char)
  | [], s => some s
  | c :: p, d :: s => if c = d then after? p s else none
  | _ :: _, [] => none

def occurs (needle : List Char) : List Char → Bool
  | [] => needle.isEmpty
  | c :: s => (after? needle (c :: s)).isSome || occurs needle s

def replaceChar (c : Char) (text : String) (s : String) : String :=
  String.join (s.toList.map fun d => if d = c then text else String.singleton d)

/-! ## Quoted text

Names and source texts are quoted in messages: in single quotes, or in double quotes when the text
holds a single quote and no double quote.  The chosen quote and the backslash are escaped, the
line and tab controls have escapes of one letter, and every other character without a printed form
is written as a hexadecimal escape of two, four or eight digits. -/

/-- The lower-case hexadecimal digits of a number, padded with zeros to a width. -/
def hex (width n : Nat) : String :=
  let digits := Nat.toDigits 16 n
  String.ofList (List.replicate (width - digits.length) '0' ++ digits)

def quoteChar (quote c : Char) : String :=
  if c = quote || c = '\\' then String.ofList ['\\', c]
  else if c = '\n' then "\\n"
  else if c = '\r' then "\\r"
  else if c = '\t' then "\\t"
  else if isPrinted c then String.singleton c
  else if c.toNat < 0x100 then "\\x" ++ hex 2 c.toNat
  else if c.toNat < 0x10000 then "\\u" ++ hex 4 c.toNat
  else "\\U" ++ hex 8 c.toNat

def quoteMark (s : String) : Char :=
  if s.toList.contains '\'' && !s.toList.contains '"' then '"' else '\''

def quote (s : String) : String :=
  let mark := quoteMark s
  String.singleton mark ++ String.join (s.toList.map (quoteChar mark)) ++ String.singleton mark

end Branchwise.Text
