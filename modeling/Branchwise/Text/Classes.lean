/-!
# Character classes

Blanks, decimal digits of every script, word characters and printed characters.  Source text and
guard text may hold any character, so each class covers the whole of Unicode; the class of name
characters is the one place where the C language admits ASCII alone.
-/

namespace Branchwise.Text

/-! ## Tables of code points -/

/-- The closed ranges behind a code point, from the length of the gap before each and its own. -/
def rangesFrom (start : Nat) : List Nat → List (Nat × Nat)
  | gap :: length :: rest =>
    (start + gap, start + gap + length - 1) :: rangesFrom (start + gap + length) rest
  | _ => []

/-- Closed ranges of the word characters beyond ASCII, in increasing order. -/
def wordRanges : List (Nat × Nat) := rangesFrom 0x80 [
  42,1,7,2,1,1,3,2,1,3,1,23,1,31,1,458,4,12,14,5,7,1,1,1,129,5,1,2,2,4,1,1,6,1,1,3,1,1,1,20,1,83,
  1,139,8,166,1,38,2,1,6,41,71,27,4,4,45,43,21,10,4,2,1,99,1,1,15,2,7,15,2,1,16,1,1,30,29,89,11,1,
  14,43,9,2,4,1,5,22,4,1,9,1,3,1,23,25,7,11,5,24,1,6,17,42,58,54,3,1,18,1,7,10,4,10,1,16,4,8,2,2,
  2,22,1,7,1,1,3,4,3,1,16,1,13,2,1,3,4,12,2,6,2,1,8,6,4,2,2,22,1,7,1,2,1,2,1,2,31,4,1,1,7,10,2,3,
  16,9,1,3,1,22,1,7,1,2,1,5,3,1,18,1,15,2,4,10,9,1,11,8,2,2,2,22,1,7,1,2,1,5,3,1,30,2,1,3,4,10,1,7,
  11,1,1,6,3,3,1,4,3,2,1,1,1,2,3,2,3,3,3,12,22,1,21,13,18,8,1,3,1,23,1,16,3,1,26,3,2,1,2,2,4,10,8,7,
  1,1,4,8,1,3,1,23,1,10,1,5,3,1,31,2,1,2,4,10,1,2,17,9,1,3,1,41,2,1,16,1,5,3,1,10,4,19,1,6,5,18,
  3,24,1,9,1,1,2,7,31,10,17,48,1,2,12,7,9,10,39,2,1,1,1,5,1,24,1,1,1,10,1,2,9,1,2,5,1,1,9,10,2,4,
  32,1,31,20,12,8,1,36,27,5,115,43,20,11,6,6,4,4,3,1,3,2,7,3,4,13,12,1,1,10,6,38,1,1,5,1,2,43,1,333,
  1,4,2,7,1,1,1,4,2,41,1,4,2,33,1,4,2,7,1,1,1,4,2,15,1,57,1,4,2,67,14,20,3,16,16,86,2,6,3,620,2,17,
  1,26,5,75,3,11,7,18,13,19,14,18,14,13,1,3,15,52,35,1,4,1,3,10,6,10,22,10,6,89,7,5,2,34,1,1,5,70,
  10,31,39,40,2,5,11,44,4,26,6,11,37,23,9,53,43,10,6,10,13,1,93,47,17,8,3,10,41,30,13,56,26,36,
  28,10,3,49,2,9,7,43,2,3,41,4,1,6,1,2,3,1,5,192,64,278,2,6,2,38,2,6,2,8,1,1,1,1,1,1,1,31,2,53,1,7,
  1,1,3,3,1,7,3,4,2,6,4,13,5,3,1,7,115,2,2,6,5,11,6,13,101,1,4,1,2,10,1,1,3,5,6,1,1,1,1,1,1,4,1,11,
  2,4,5,5,4,1,1,58,726,60,78,22,630,30,1132,229,6,4,3,2,9,1,2,38,1,1,5,1,2,56,7,1,16,23,9,7,1,7,1,7,
  1,7,1,7,1,7,1,7,1,7,80,1,469,3,25,9,7,5,2,5,4,86,6,3,1,90,1,4,5,43,1,94,3,4,10,32,48,16,32,10,
  30,8,1,15,32,10,39,15,320,6592,64,22157,67,46,2,269,3,28,20,47,16,31,2,80,39,9,2,103,2,64,5,2,1,1,
  1,5,24,16,1,3,1,4,1,23,13,6,10,52,14,50,28,10,24,6,3,1,1,2,1,38,10,23,25,29,7,47,28,11,6,5,1,25,
  1,41,23,3,1,8,4,10,6,23,3,1,3,50,1,1,3,2,2,5,2,1,1,1,24,3,2,11,7,3,12,6,2,6,2,6,9,7,1,7,1,43,1,14,
  6,115,13,10,6,11172,12,23,4,49,8452,366,2,106,38,7,12,5,5,1,1,10,1,13,1,5,1,1,1,2,1,2,1,108,
  33,363,18,64,2,54,40,12,116,5,1,135,19,10,7,26,6,26,11,89,3,6,2,6,2,6,2,3,35,12,1,26,1,19,1,2,
  1,15,2,14,34,123,12,45,12,57,17,2,244,29,3,49,16,27,4,36,9,30,5,38,10,30,2,36,4,8,1,5,42,158,2,10,
  6,36,4,36,4,40,8,52,12,11,1,15,1,7,1,2,1,11,1,15,1,7,1,2,67,311,9,22,10,8,24,6,1,42,1,9,69,6,2,1,
  1,44,1,2,3,1,2,23,2,31,2,38,8,9,48,19,1,2,5,33,4,26,70,56,4,20,2,47,15,4,1,3,1,29,10,9,23,31,1,32,
  32,8,1,28,6,5,16,54,10,22,2,27,5,26,23,7,80,73,55,51,13,51,7,42,12,10,294,31,1,42,6,2,78,40,8,22,
  11,4,27,18,46,28,20,23,12,53,26,30,1,2,2,1,13,45,32,25,7,10,9,36,15,10,4,1,2,1,8,35,3,1,12,48,
  14,4,11,11,1,1,4,20,11,18,1,25,84,7,1,1,1,4,1,15,1,10,7,47,17,10,11,8,2,2,2,22,1,7,1,2,1,5,3,1,
  18,1,12,5,158,53,18,4,5,10,5,3,30,48,20,2,1,1,8,10,166,47,41,4,36,48,20,1,11,10,38,43,13,1,7,10,
  54,27,21,12,4,7,185,44,116,83,12,8,2,1,2,8,1,2,1,24,15,1,1,1,14,10,70,8,2,39,16,1,1,1,28,1,10,40,
  7,1,21,1,11,46,19,1,18,73,263,9,1,37,17,1,15,29,5,30,112,7,1,2,1,38,21,1,9,10,6,6,1,2,1,32,14,1,
  7,10,310,19,189,1,15,21,43,922,102,111,17,196,2636,97,15,1071,4049,583,8633,569,7,31,1,10,6,79,
  1,10,6,30,18,48,16,4,12,10,1,7,1,21,5,19,688,87,105,75,5,1,66,13,64,2,1,1,28,6136,8,1238,42,9,
  8935,4,1,7,1,2,1,291,45,3,17,4,8,396,2308,107,5,13,3,9,7,10,5702,20,108,25,135,85,1,71,1,2,2,1,
  2,2,2,4,1,12,1,1,1,7,1,65,1,4,2,8,1,7,1,28,1,4,1,5,1,1,3,7,1,340,2,25,1,25,1,31,1,25,1,31,1,25,
  1,31,1,25,1,31,1,25,1,8,2,50,1792,31,481,45,10,7,2,10,4,1,321,30,18,44,4,10,1254,7,1,4,1,2,1,15,
  1,197,2,9,48,68,7,1,4,10,791,59,1,3,1,4,76,45,1,15,194,4,1,27,1,2,1,1,2,1,1,10,1,4,1,1,1,1,6,1,
  4,1,1,1,1,1,1,3,1,2,1,1,2,1,1,1,1,1,1,1,1,1,1,2,1,1,2,4,1,7,1,4,1,4,1,1,1,10,1,17,5,3,1,5,1,17,
  580,13,2787,10,1030,42720,32,4153,7,222,2,5762,14,7473,3103,542,1506,4939]

/-- Closed ranges of the characters beyond ASCII that have no printed form, in increasing order. -/
def unprintedRanges : List (Nat × Nat) := rangesFrom 0x80 [
  0,33,12,1,714,2,6,4,7,1,1,1,20,1,397,1,38,2,50,2,3,1,55,8,27,4,6,17,22,1,192,1,48,2,59,2,101,14,
  59,2,49,2,15,1,28,2,1,1,11,5,31,9,74,1,161,1,8,2,2,2,22,1,7,1,1,3,4,2,9,2,2,2,4,8,1,4,2,1,5,2,
  25,2,3,1,6,4,2,2,22,1,7,1,2,1,2,1,2,2,1,1,5,4,2,2,3,3,1,7,4,1,1,7,17,10,3,1,9,1,3,1,22,1,7,1,2,1,
  5,2,10,1,3,1,3,2,1,15,4,2,12,7,7,1,3,1,8,2,2,2,22,1,7,1,2,1,5,2,9,2,2,2,3,7,3,4,2,1,5,2,18,10,2,1,
  6,3,3,1,4,3,2,1,1,1,2,3,2,3,3,3,12,4,5,3,3,1,4,2,1,6,1,14,21,5,13,1,3,1,23,1,16,2,9,1,3,1,4,7,2,1,
  3,2,1,2,4,2,10,7,22,1,3,1,23,1,10,1,5,2,9,1,3,1,4,7,2,6,2,1,4,2,10,1,2,13,13,1,3,1,51,1,3,1,6,4,
  16,2,26,1,3,1,18,3,24,1,9,1,1,2,7,3,1,4,6,1,1,1,8,6,10,2,3,12,58,4,29,37,2,1,1,1,5,1,24,1,1,1,
  23,2,5,1,1,1,6,2,10,2,4,32,72,1,36,4,39,1,36,1,15,1,13,37,198,1,1,5,1,2,377,1,4,2,7,1,1,1,4,2,
  41,1,4,2,33,1,4,2,7,1,1,1,4,2,15,1,57,1,4,2,67,2,32,3,26,6,86,2,6,2,640,1,28,3,89,7,22,9,24,9,
  20,12,13,1,3,1,2,12,94,2,10,6,10,6,14,1,11,6,89,7,43,5,70,10,31,1,12,4,12,4,1,3,42,2,5,11,44,4,
  26,6,11,3,62,2,65,1,29,2,11,6,10,6,14,2,31,49,77,3,47,1,116,8,60,3,15,3,60,7,43,2,11,8,43,5,534,2,
  6,2,38,2,6,2,8,1,1,1,1,1,1,1,31,2,53,1,15,1,14,2,6,1,19,2,3,1,9,17,24,8,47,17,2,2,27,1,13,3,33,15,
  33,15,140,4,663,25,11,21,1812,2,32,1,349,5,45,1,1,5,1,2,56,7,2,14,24,9,7,1,7,1,7,1,7,1,7,1,7,1,
  7,1,7,1,126,34,26,1,89,12,214,26,12,5,63,1,86,2,103,5,43,1,94,1,84,12,47,1,29293,3,55,9,348,20,
  184,8,203,5,2,1,1,1,5,24,59,3,10,6,56,8,70,8,12,6,116,11,30,3,78,1,11,4,33,1,55,9,14,2,10,2,
  103,24,28,10,6,2,6,2,6,9,7,1,7,1,60,4,126,2,10,6,11172,12,23,4,49,8452,366,2,106,38,7,12,5,5,26,1,
  5,1,1,1,2,1,2,1,125,16,445,2,54,7,1,32,42,6,51,1,19,1,4,4,5,1,135,4,190,3,6,2,6,2,6,2,3,3,7,1,
  7,13,2,2,12,1,26,1,19,1,2,1,15,2,14,34,123,5,3,4,45,3,88,1,13,3,1,47,46,130,29,3,49,15,28,4,36,9,
  30,5,43,5,30,1,37,4,14,42,158,2,10,6,36,4,36,4,40,8,52,11,12,1,15,1,7,1,2,1,11,1,15,1,7,1,2,67,
  311,9,22,10,8,24,6,1,42,1,9,69,6,2,1,1,44,1,2,3,1,2,23,1,72,8,9,48,19,1,2,5,33,3,27,5,1,64,56,4,
  20,2,50,1,2,5,8,1,3,1,29,2,3,4,10,7,9,7,64,32,39,4,12,9,54,3,29,2,27,5,26,7,4,12,7,80,73,55,51,13,
  51,7,46,8,10,294,31,1,42,1,3,2,2,78,40,8,42,22,26,38,28,20,23,9,78,4,36,9,62,1,5,13,25,7,10,6,
  53,1,18,8,39,9,96,1,20,11,18,1,44,65,7,1,1,1,4,1,15,1,11,6,59,5,10,6,4,1,8,2,2,2,22,1,7,1,2,1,5,1,
  10,2,2,2,3,2,1,6,1,5,7,2,7,3,5,139,92,1,5,30,72,8,10,166,54,2,38,34,69,11,10,6,13,19,58,6,10,54,
  27,2,15,4,23,185,60,100,83,12,8,2,1,2,8,1,2,1,30,1,2,2,12,9,10,70,8,2,46,2,11,27,72,8,83,13,
  73,263,9,1,45,1,14,10,29,3,32,2,22,1,14,73,7,1,2,1,44,3,1,1,2,1,9,8,10,6,6,1,2,1,37,1,2,1,6,7,
  10,310,25,183,1,15,50,13,923,102,111,1,5,11,196,2636,99,13,1071,4049,583,8633,569,7,31,1,10,4,
  81,1,10,6,30,2,6,10,70,10,10,1,7,1,21,5,19,688,91,101,75,4,57,7,17,64,5,11,2,14,6136,8,1238,42,
  9,8935,4,1,7,1,2,1,291,45,3,17,4,8,396,2308,107,5,13,3,9,7,10,2,4,4704,46,2,23,9,116,60,246,10,
  39,2,74,8,112,21,70,154,20,12,87,9,25,135,85,1,71,1,2,2,1,2,2,2,4,1,12,1,1,1,7,1,65,1,4,2,8,1,7,1,
  28,1,4,1,5,1,1,3,7,1,340,2,292,2,702,15,5,1,15,1104,31,225,7,1,17,2,7,1,2,1,5,213,45,3,14,2,10,4,
  2,320,31,17,58,5,1,1248,7,1,4,1,2,1,15,1,197,2,16,41,76,4,10,4,2,785,68,76,61,194,4,1,27,1,2,1,
  1,2,1,1,10,1,4,1,1,1,1,6,1,4,1,1,1,1,1,1,3,1,2,1,1,2,1,1,1,1,1,1,1,1,1,1,2,1,1,2,4,1,7,1,4,1,4,1,
  1,1,10,1,17,5,3,1,5,1,17,52,2,270,44,4,100,12,15,2,15,1,15,1,37,10,174,56,29,13,44,4,9,7,2,14,
  6,154,984,5,16,3,13,3,116,12,89,7,12,4,1,15,12,4,56,8,10,6,40,8,30,2,2,78,340,12,14,2,5,3,5,3,7,9,
  29,3,11,5,6,10,10,6,8,8,7,9,147,1,55,37,10,1030,42720,32,4153,7,222,2,5762,14,7473,3103,542,1506,
  4939,716213,240,196112]

/-! ## Classes -/

def inRanges (ranges : List (Nat × Nat)) (code : Nat) : Bool :=
  ranges.any fun r => r.1 ≤ code && code ≤ r.2

def isWhiteSpace (c : Char) : Bool :=
  let n := c.toNat
  (9 ≤ n && n ≤ 13) || n == 32 ||
    (128 ≤ n && inRanges [(0x85, 0x85), (0xA0, 0xA0), (0x1680, 0x1680), (0x2000, 0x200A),
      (0x2028, 0x2029), (0x202F, 0x202F), (0x205F, 0x205F), (0x3000, 0x3000)] n)

/-- Blanks: white space together with the four separators `U+001C` to `U+001F`. -/
def isBlank (c : Char) : Bool :=
  (28 ≤ c.toNat && c.toNat ≤ 31) || isWhiteSpace c

/-- The code points of the digit zero in each script that has decimal digits. -/
def zeroDigits : List Nat := [
  0x30, 0x660, 0x6F0, 0x7C0, 0x966, 0x9E6, 0xA66, 0xAE6, 0xB66, 0xBE6, 0xC66, 0xCE6, 0xD66, 0xDE6,
  0xE50, 0xED0, 0xF20, 0x1040, 0x1090, 0x17E0, 0x1810, 0x1946, 0x19D0, 0x1A80, 0x1A90, 0x1B50,
  0x1BB0, 0x1C40, 0x1C50, 0xA620, 0xA8D0, 0xA900, 0xA9D0, 0xA9F0, 0xAA50, 0xABF0, 0xFF10, 0x104A0,
  0x10D30, 0x11066, 0x110F0, 0x11136, 0x111D0, 0x112F0, 0x11450, 0x114D0, 0x11650, 0x116C0,
  0x11730, 0x118E0, 0x11950, 0x11C50, 0x11D50, 0x11DA0, 0x16A60, 0x16AC0, 0x16B50, 0x1D7CE,
  0x1D7D8, 0x1D7E2, 0x1D7EC, 0x1D7F6, 0x1E140, 0x1E2F0, 0x1E950, 0x1FBF0]

def digitValue? (c : Char) : Option Nat :=
  let n := c.toNat
  if n < 128 then if 48 ≤ n && n ≤ 57 then some (n - 48) else none
  else (zeroDigits.find? fun z => z ≤ n && n ≤ z + 9).map (n - ·)

def isDigit (c : Char) : Bool := (digitValue? c).isSome

/-- The code points of the digit zero in the youngest scripts, whose digits are known as digits but
not by their values. -/
def youngZeroDigits : List Nat := [
  0x10D40, 0x116D0, 0x116DA, 0x11BF0, 0x11DE0, 0x11F50, 0x16130, 0x16D70, 0x1CCF0, 0x1E4F0, 0x1E5F1]

/-- Whether a character can stand in a numeric literal: a digit of any script, also of one whose
digits have no known value. -/
def isLiteralDigit (c : Char) : Bool :=
  let n := c.toNat
  isDigit c || (128 ≤ n && youngZeroDigits.any fun z => z ≤ n && n ≤ z + 9)

/-- Digits that belong to no decimal system: raised and lowered ones, digits in circles, and digits
of scripts without a zero. -/
def otherDigits : List (Nat × Nat) := [
  (0xB2, 0xB3), (0xB9, 0xB9), (0x1369, 0x1371), (0x19DA, 0x19DA), (0x2070, 0x2070),
  (0x2074, 0x2079), (0x2080, 0x2089), (0x2460, 0x2468), (0x2474, 0x247C), (0x2488, 0x2490),
  (0x24EA, 0x24EA), (0x24F5, 0x24FD), (0x24FF, 0x24FF), (0x2776, 0x277E), (0x2780, 0x2788),
  (0x278A, 0x2792), (0x10A40, 0x10A43), (0x10E60, 0x10E68), (0x11052, 0x1105A), (0x1F100, 0x1F10A)]

def isAnyDigit (c : Char) : Bool := isDigit c || inRanges otherDigits c.toNat

def isWord (c : Char) : Bool :=
  let n := c.toNat
  if n < 128 then
    (48 ≤ n && n ≤ 57) || (65 ≤ n && n ≤ 90) || n == 95 || (97 ≤ n && n ≤ 122)
  else inRanges wordRanges n

/-- Whether a character has a printed form; of the blanks only the space has one. -/
def isPrinted (c : Char) : Bool :=
  let n := c.toNat
  if n < 128 then 32 ≤ n && n ≤ 126 else !inRanges unprintedRanges n

/-- Whether a character can open a C name: an ASCII letter or the underscore. -/
def isNameStart (c : Char) : Bool :=
  let n := c.toNat
  (65 ≤ n && n ≤ 90) || n == 95 || (97 ≤ n && n ≤ 122)

/-- Whether a character can continue a C name: an ASCII letter, digit or underscore. -/
def isNameChar (c : Char) : Bool :=
  isNameStart c || (48 ≤ c.toNat && c.toNat ≤ 57)

def hexValue? (c : Char) : Option Nat :=
  let n := c.toNat
  if 48 ≤ n && n ≤ 57 then some (n - 48)
  else if 65 ≤ n && n ≤ 70 then some (n - 55)
  else if 97 ≤ n && n ≤ 102 then some (n - 87)
  else none

end Branchwise.Text
