/-!
# Texts from bytes

Bytes are read as UTF-8.  The longest start of a sequence that cannot be continued stands for one
replacement character, as does a byte that starts no sequence.  Line ends are read as line feeds.
-/

namespace Branchwise.Text

/-- What the first byte of a sequence says: how many bytes follow, the bits of the first byte, and
the least and the greatest second byte. -/
def sequenceHead? (b : Nat) : Option (Nat × Nat × Nat × Nat) :=
  if 0xC2 ≤ b ∧ b ≤ 0xDF then some (1, b - 0xC0, 0x80, 0xBF)
  else if b = 0xE0 then some (2, 0, 0xA0, 0xBF)
  else if b = 0xED then some (2, 0xD, 0x80, 0x9F)
  else if 0xE1 ≤ b ∧ b ≤ 0xEF then some (2, b - 0xE0, 0x80, 0xBF)
  else if b = 0xF0 then some (3, 0, 0x90, 0xBF)
  else if b = 0xF4 then some (3, 4, 0x80, 0x8F)
  else if 0xF1 ≤ b ∧ b ≤ 0xF3 then some (3, b - 0xF0, 0x80, 0xBF)
  else none

def replacement : Char := '�'

/-- Takes the remaining bytes of a sequence, the first of them within the given bounds. -/
def takeTail : Nat → Nat → Nat → Nat → List UInt8 → Char × List UInt8
  | 0, value, _, _, rest => (Char.ofNat value, rest)
  | _ + 1, _, _, _, [] => (replacement, [])
  | n + 1, value, lo, hi, b :: rest =>
    if lo ≤ b.toNat ∧ b.toNat ≤ hi then takeTail n (value * 64 + (b.toNat - 0x80)) 0x80 0xBF rest
    else (replacement, b :: rest)

def decodeLoop : Nat → List UInt8 → List Char
  | 0, _ => []
  | _ + 1, [] => []
  | fuel + 1, b :: rest =>
    if b.toNat < 0x80 then Char.ofNat b.toNat :: decodeLoop fuel rest
    else
      match sequenceHead? b.toNat with
      | none => replacement :: decodeLoop fuel rest
      | some (n, value, lo, hi) =>
        let (c, rest) := takeTail n value lo hi rest
        c :: decodeLoop fuel rest

def decodeUtf8 (bytes : List UInt8) : List Char := decodeLoop bytes.length bytes

/-- A carriage return, alone or before a line feed, is read as a line feed. -/
def unifyLineEnds : List Char → List Char
  | [] => []
  | '\r' :: '\n' :: cs => '\n' :: unifyLineEnds cs
  | '\r' :: cs => '\n' :: unifyLineEnds cs
  | c :: cs => c :: unifyLineEnds cs

def ofBytes (bytes : List UInt8) : String := String.ofList (unifyLineEnds (decodeUtf8 bytes))

end Branchwise.Text
