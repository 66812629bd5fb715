import Branchwise.Number.Binary64
import Branchwise.Text.Words

/-!
# Texts of numbers

How numbers are written in literals and messages, and how literals are read.  A binary number is
written with the digits of its shortest decimal, positionally when the leading digit stands for
`10 ^ -4` to `10 ^ 15` and with an exponent of at least two digits otherwise.
-/

namespace Branchwise

structure DecimalFormat where
  /-- The least exponent of a leading digit that is written positionally. -/
  positionalFrom : Int
  positionalBelow : Int
  exponentDigits : Nat
deriving Repr

def literalFormat : DecimalFormat := ⟨-4, 16, 2⟩

namespace DecimalFormat

def padLeft (width : Nat) (digits : List Char) : List Char :=
  List.replicate (width - digits.length) '0' ++ digits

def write (f : DecimalFormat) (d : Decimal) : String :=
  let digits := Nat.toDigits 10 d.digits
  let lead : Int := d.exponent + (digits.length : Int) - 1
  let sign := if d.negative then "-" else ""
  let body :=
    if d.digits = 0 then "0.0".toList
    else if f.positionalFrom ≤ lead && lead < f.positionalBelow then
      if lead < 0 then "0.".toList ++ List.replicate (-lead - 1).toNat '0' ++ digits
      else
        let whole := lead.toNat + 1
        let digits := digits ++ List.replicate (whole - digits.length) '0'
        let part := digits.drop whole
        digits.take whole ++ '.' :: (if part.isEmpty then ['0'] else part)
    else
      let fraction := digits.drop 1
      let point := if fraction.isEmpty then [] else '.' :: fraction
      let mark := if lead < 0 then '-' else '+'
      digits.take 1 ++ point ++ 'e' :: mark ::
        padLeft f.exponentDigits (Nat.toDigits 10 lead.natAbs)
  sign ++ String.ofList body

end DecimalFormat

namespace Binary64

def text (x : Binary64) : String :=
  match x with
  | nan _ => "nan"
  | infinite negative => if negative then "-inf" else "inf"
  | finite .. =>
    match x.shortest? with
    | some d => literalFormat.write d
    | none => ""

end Binary64

namespace Number

/-- The value of a run of digits of any script in a base; `none` if a digit is too large. -/
def ofDigits? (base : Nat) (digits : List Char) : Option Nat :=
  digits.foldlM (fun n c =>
    match Text.digitValue? c with
    | some d => if d < base then some (n * base + d) else none
    | none => none) 0

def ofHexDigits? (base : Nat) (digits : List Char) : Option Nat :=
  digits.foldlM (fun n c =>
    match (Text.hexValue? c).or (Text.digitValue? c) with
    | some d => if d < base then some (n * base + d) else none
    | none => none) 0

/-- The digits of a run in which single underscores may stand between two digits. -/
def dropUnderscores (isDigit : Char → Bool) (cs : List Char) : Option (List Char) :=
  let parts := Text.splitChars '_' cs
  if parts.all (fun p => !p.isEmpty && p.all isDigit) then some parts.flatten else none

/-- An optional sign in front: whether it is a minus, and what follows it. -/
def splitSign : List Char → Bool × List Char
  | '-' :: r => (true, r)
  | '+' :: r => (false, r)
  | r => (false, r)

def maxDecimalDigits : Nat := 4300

def isWritable (n : Int) : Bool := n.natAbs < Nat.pow 10 maxDecimalDigits

/-- The number of decimal digits of a positive number.  As `10 ^ 30102 ≤ 2 ^ 100000`, the number of
binary digits gives all but a few of them. -/
def decimalLength (n : Nat) : Nat :=
  let least := n.log2 * 30102 / 100000
  let steps := List.range (n.log2 / 100000 + 3)
  least + (steps.takeWhile fun i => Nat.pow 10 (least + i) ≤ n).length

def trimSpaces (s : List Char) : List Char :=
  ((s.dropWhile Text.isWhiteSpace).reverse.dropWhile Text.isWhiteSpace).reverse

/-- The sign and the digits of a decimal integer; leading zeros are allowed. -/
def decimalDigits? (s : List Char) : Option (Bool × List Char) := do
  let (negative, r) := splitSign (trimSpaces s)
  return (negative, ← dropUnderscores Text.isDigit r)

def ofHexLetter (c : Char) : Bool := (Text.hexValue? c).isSome || Text.isDigit c

/-- Digits in a base, where one underscore may also stand right after the base mark. -/
def basedDigits? (base : Nat) (digits : List Char) : Option Nat := do
  let digits := match digits with | '_' :: r => r | r => r
  let run ← dropUnderscores ofHexLetter digits
  ofHexDigits? base run

/-- An integer literal with an optional sign.  A base mark (`0x`, `0o`, `0b`, either case, with a
zero of any script) gives the base; without one the literal is decimal and has no leading zero
unless it is zero. -/
def int? (s : List Char) : Option Int := do
  let (negative, r) := splitSign (trimSpaces s)
  let n ← match r with
    | zero :: x :: d =>
      if Text.digitValue? zero ≠ some 0 then decimal? r
      else if x = 'x' || x = 'X' then basedDigits? 16 d
      else if x = 'o' || x = 'O' then basedDigits? 8 d
      else if x = 'b' || x = 'B' then basedDigits? 2 d
      else decimal? r
    | _ => decimal? r
  return if negative then -(n : Int) else n
where
  decimal? (r : List Char) : Option Nat := do
    let digits ← dropUnderscores Text.isDigit r
    let n ← ofDigits? 10 digits
    if maxDecimalDigits < digits.length then none
    else if (digits.head?.bind Text.digitValue?) = some 0 && n ≠ 0 then none
    else some n

/-- The exponent part of a decimal literal, from its mark on; zero if there is none. -/
def exponent? (isDigits : List Char → Option (List Char)) : List Char → Option Int
  | [] => some 0
  | _ :: e => do
    let (negative, d) := splitSign e
    let run ← isDigits d
    let n ← ofDigits? 10 run
    return if negative then -(n : Int) else n

def unsignedReal? (isDigits : List Char → Option (List Char)) (r : List Char) : Option Decimal := do
  let mantissa := r.takeWhile fun c => c ≠ 'e' && c ≠ 'E'
  let exponent ← exponent? isDigits (r.drop mantissa.length)
  let whole := mantissa.takeWhile (· ≠ '.')
  let fraction := (mantissa.drop whole.length).drop 1
  let wholeDigits ← if whole.isEmpty then some [] else isDigits whole
  let fractionDigits ← if fraction.isEmpty then some [] else isDigits fraction
  if wholeDigits.isEmpty && fractionDigits.isEmpty then none
  else
    let n ← ofDigits? 10 (wholeDigits ++ fractionDigits)
    return ⟨false, n, exponent - (fractionDigits.length : Int)⟩

/-- The binary number nearest to a decimal.  An exponent far outside the format decides the result
without computing the power. -/
def ofDecimal (d : Decimal) : Binary64 :=
  let lead : Int := d.exponent + (Binary64.decimalLength d.digits : Int)
  if d.digits = 0 then Binary64.zero d.negative
  else if 400 < lead then .infinite d.negative
  else if lead < -400 then Binary64.zero d.negative
  else Binary64.ofRat d.toRat d.negative

def lower (cs : List Char) : List Char := cs.map Char.toLower

/-- A floating literal with an optional sign: decimal digits with an optional point and exponent,
or a name of an infinity or of no number. -/
def real? (s : List Char) : Option Binary64 :=
  let (negative, r) := splitSign (trimSpaces s)
  let name := lower r
  if name = "inf".toList || name = "infinity".toList then some (.infinite negative)
  else if name = "nan".toList then some (.nan 0)
  else (unsignedReal? (dropUnderscores Text.isDigit) r).map fun d =>
    ofDecimal { d with negative := negative }

end Number

end Branchwise
