/-!
# Binary floating-point numbers of 64 bits

A finite number is `mantissa · 2 ^ exponent` with a sign, in the one form the format gives it: the
mantissa has 53 bits, or fewer when the exponent is the least one.  All arithmetic is exact on
rationals; `ofRat` is the only place where a value is rounded.
-/

namespace Branchwise

inductive Binary64 where
  | finite (negative : Bool) (mantissa : Nat) (exponent : Int)
  | infinite (negative : Bool)
  /-- No number.  It equals nothing, and the tag tells whether two of them are one and the same. -/
  | nan (tag : Nat)
deriving DecidableEq, Repr, Inhabited

namespace Binary64

def minExponent : Int := -1074

def maxExponent : Int := 971

def precision : Nat := 53

def pow2 (e : Int) : Rat :=
  if 0 ≤ e then (Nat.pow 2 e.toNat : Rat) else 1 / (Nat.pow 2 (-e).toNat : Rat)

def pow10 (e : Int) : Rat :=
  if 0 ≤ e then (Nat.pow 10 e.toNat : Rat) else 1 / (Nat.pow 10 (-e).toNat : Rat)

def zero (negative : Bool) : Binary64 := finite negative 0 minExponent

/-- The integer nearest to a rational; a half goes to the even neighbour. -/
def roundHalfEven (r : Rat) : Int :=
  let below := r.floor
  let rest := r - below
  if rest < 1 / 2 then below
  else if 1 / 2 < rest then below + 1
  else if below % 2 = 0 then below else below + 1

def log2Floor (r : Rat) : Int :=
  let guess : Int := (r.num.natAbs.log2 : Int) - (r.den.log2 : Int)
  if pow2 guess ≤ r then guess else guess - 1

/-- The number nearest to a rational, a half going to the even mantissa; `negative` is the sign that
a zero result gets.  A value beyond the greatest finite number becomes infinite. -/
def ofRat (r : Rat) (negative : Bool) : Binary64 :=
  let size := if r < 0 then -r else r
  if size = 0 then zero negative
  else
    let exponent := max (log2Floor size - 52) minExponent
    let mantissa := (roundHalfEven (size / pow2 exponent)).toNat
    let (mantissa, exponent) :=
      if mantissa = Nat.pow 2 precision then (Nat.pow 2 (precision - 1), exponent + 1)
      else (mantissa, exponent)
    if maxExponent < exponent then infinite negative else finite negative mantissa exponent

def toRat? : Binary64 → Option Rat
  | finite negative m e => some ((if negative then -(m : Rat) else (m : Rat)) * pow2 e)
  | _ => none

def isFinite : Binary64 → Bool
  | finite .. => true
  | _ => false

def isNaN : Binary64 → Bool
  | nan _ => true
  | _ => false

def isNegative : Binary64 → Bool
  | finite negative .. => negative
  | infinite negative => negative
  | nan _ => false

def neg : Binary64 → Binary64
  | finite negative m e => finite (!negative) m e
  | infinite negative => infinite (!negative)
  | nan tag => nan tag

def ofBits (bits : Nat) : Binary64 :=
  let negative := decide (Nat.pow 2 63 ≤ bits)
  let biased : Nat := bits / Nat.pow 2 52 % Nat.pow 2 11
  let fraction : Nat := bits % Nat.pow 2 52
  if biased = 2047 then if fraction = 0 then infinite negative else nan 0
  else if biased = 0 then finite negative fraction minExponent
  else finite negative (fraction + Nat.pow 2 52) (Int.ofNat biased - 1075)

end Binary64

/-! ## The shortest decimal that reads back

The shortest decimal of a number has the fewest digits inside the interval of the reals that round
to it, and of those it is the one nearest to the number.  On each decimal grid only the two
neighbours of the number can be nearest; seventeen digits always suffice. -/

/-- The number `digits · 10 ^ exponent`, with a sign. -/
structure Decimal where
  negative : Bool
  digits : Nat
  exponent : Int
deriving DecidableEq, Repr, Inhabited

namespace Decimal

def toRat (d : Decimal) : Rat :=
  (if d.negative then -(d.digits : Rat) else (d.digits : Rat)) * Binary64.pow10 d.exponent

/-- The same number without trailing zeros among its digits; `fuel` bounds how many are dropped. -/
def dropZeros : Nat → Decimal → Decimal
  | 0, d => d
  | fuel + 1, d =>
    if d.digits ≠ 0 ∧ d.digits % 10 = 0 then
      dropZeros fuel ⟨d.negative, d.digits / 10, d.exponent + 1⟩
    else d

end Decimal

namespace Binary64

def decimalLength (n : Nat) : Nat := if n = 0 then 0 else (Nat.toDigits 10 n).length

def log10Floor (r : Rat) : Int :=
  if 1 ≤ r then (decimalLength r.floor.toNat : Int) - 1
  else -(decimalLength ((1 / r).ceil.toNat - 1) : Int)

/-- The ends of the interval that rounds to `m · 2 ^ q`.  Below a power of two the neighbours are
half as far apart. -/
def roundingInterval (m : Nat) (q : Int) : Rat × Rat :=
  let unit := pow2 q
  let low := if m = Nat.pow 2 (precision - 1) && minExponent < q then unit / 4 else unit / 2
  ((m : Rat) * unit - low, (m : Rat) * unit + unit / 2)

/-- The better of the two neighbours of `r` on the grid of multiples of `10 ^ k`, if one of them
lies inside the interval. -/
def gridCandidate (r lo hi : Rat) (closed : Bool) (k : Int) : Option Nat :=
  let unit := pow10 k
  let below := (r / unit).floor.toNat
  let inside (n : Nat) : Bool :=
    let x := (n : Rat) * unit
    if closed then lo ≤ x && x ≤ hi else lo < x && x < hi
  let distance (n : Nat) : Rat := let d := (n : Rat) * unit - r; if d < 0 then -d else d
  match inside below && below != 0, inside (below + 1) with
  | true, true =>
    if distance below < distance (below + 1) then some below
    else if distance (below + 1) < distance below then some (below + 1)
    else if below % 2 = 0 then some below else some (below + 1)
  | true, false => some below
  | false, true => some (below + 1)
  | false, false => none

def searchGrid (r lo hi : Rat) (closed : Bool) (lead : Int) : Nat → Nat → Option (Nat × Int)
  | 0, _ => none
  | fuel + 1, n =>
    let k := lead - n + 1
    match gridCandidate r lo hi closed k with
    | some d => some (d, k)
    | none => searchGrid r lo hi closed lead fuel (n + 1)

def shortest? : Binary64 → Option Decimal
  | finite negative m q =>
    if m = 0 then some ⟨negative, 0, 0⟩
    else
      let r := (m : Rat) * pow2 q
      let (lo, hi) := roundingInterval m q
      match searchGrid r lo hi (m % 2 = 0) (log10Floor r) 17 1 with
      | some (d, k) => some (Decimal.dropZeros 20 ⟨negative, d, k⟩)
      | none => none
  | _ => none

def decimalValue? (x : Binary64) : Option Rat := x.shortest?.map Decimal.toRat

end Binary64

/-! ## Numerals

Constants given as texts: an integer with an optional sign and with a denominator, or with decimals
and a power of ten.  Blanks and signs inside a numeral are passed over; the sign of an exponent
stands right after its mark. -/

namespace Number

def isNumeralChar (c : Char) : Bool :=
  c.isDigit || ['/', '-', '+', ' ', '\n', '.', 'e', 'E'].contains c

def digitsValue (cs : List Char) : Nat :=
  (cs.filter Char.isDigit).foldl (fun n c => 10 * n + (c.toNat - 48)) 0

def digitCount (cs : List Char) : Nat := (cs.filter Char.isDigit).length

def isExponentMark (c : Char) : Bool := c = 'e' || c = 'E'

def startsNegative (cs : List Char) : Bool := (cs.dropWhile (· = ' ')).head? = some '-'

/-- The value of an exponent part from its mark on, which may be empty.  Its digits form a word of
64 bits; it is refused if it does not fit in 32 bits, or with a denominator inside it. -/
def exponentValue? (cs : List Char) : Option Int :=
  let n : Nat := digitsValue cs % Nat.pow 2 64
  if cs.contains '/' || Nat.pow 2 32 ≤ n then none
  else if cs.tail.head? = some '-' then some (-(n : Int))
  else some (n : Int)

/-- The number that a numeral stands for; it ends at the first null character.  `none` if it holds
another character, has a denominator that is zero, or has both a denominator and an exponent. -/
def numeral? (s : String) : Option Rat :=
  let cs := s.toList.takeWhile fun c => c.toNat ≠ 0
  if !cs.all isNumeralChar then none
  else
    let whole := cs.takeWhile fun c => c ≠ '/' && c ≠ '.' && !isExponentMark c
    let rest := cs.drop whole.length
    let part := rest.takeWhile fun c => !isExponentMark c
    let exponent := rest.drop part.length
    let size : Option Rat := match part with
      | '/' :: den =>
        if digitsValue den = 0 || !exponent.isEmpty then none
        else some (digitsValue whole / digitsValue den)
      | '.' :: decimals =>
        some (digitsValue (whole ++ decimals) * Binary64.pow10 (-(digitCount decimals : Int)))
      | _ => some (digitsValue whole)
    size.bind fun q => (exponentValue? exponent).map fun e =>
      let q := q * Binary64.pow10 e
      if startsNegative cs then -q else q

end Number

end Branchwise
