import Branchwise.Json.Decoder

/-!
# Base types of C

The arithmetic types, pointers and `void`, each with its canonical spelling, its size and alignment
on a target, its range if it is an integer type, and the sort of the terms that stand for its
values.
-/

namespace Branchwise

/-! ## Targets -/

structure Target where
  name : Json
  pointerSize : Json
  longSize : Json
  longDoubleSize : Json
  maxAlignment : Json
  charIsSigned : Json
deriving Repr, Inhabited

namespace Target

def lp64 : Target := ⟨.str "lp64", .int 8, .int 8, .int 16, .int 16, .bool true⟩

def ilp32 : Target := ⟨.str "ilp32", .int 4, .int 4, .int 12, .int 4, .bool true⟩

/-- A target with one parameter replaced; `none` if there is no parameter of the name. -/
def with? (t : Target) (key : String) (v : Json) : Option Target :=
  match key with
  | "name" => some { t with name := v }
  | "pointer_size" => some { t with pointerSize := v }
  | "long_size" => some { t with longSize := v }
  | "long_double_size" => some { t with longDoubleSize := v }
  | "max_alignment" => some { t with maxAlignment := v }
  | "char_is_signed" => some { t with charIsSigned := v }
  | _ => none

end Target

/-! ## Types -/

inductive TermSort where
  | int
  | real
  | bool
deriving DecidableEq, Repr, Inhabited

namespace TermSort

def name : TermSort → String
  | int => "int"
  | real => "real"
  | bool => "bool"

end TermSort

inductive BaseType where
  | bool
  | char
  | schar
  | uchar
  | short
  | ushort
  | int
  | uint
  | long
  | ulong
  | longlong
  | ulonglong
  | float
  | double
  | longdouble
  | pointer
  | void
deriving DecidableEq, Repr, Inhabited

namespace BaseType

def spelling : BaseType → String
  | bool => "_Bool"
  | char => "char"
  | schar => "signed char"
  | uchar => "unsigned char"
  | short => "short"
  | ushort => "unsigned short"
  | int => "int"
  | uint => "unsigned int"
  | long => "long"
  | ulong => "unsigned long"
  | longlong => "long long"
  | ulonglong => "unsigned long long"
  | float => "float"
  | double => "double"
  | longdouble => "long double"
  | pointer => "void *"
  | void => "void"

def tag : BaseType → String
  | bool => "BOOL"
  | char => "CHAR"
  | schar => "SCHAR"
  | uchar => "UCHAR"
  | short => "SHORT"
  | ushort => "USHORT"
  | int => "INT"
  | uint => "UINT"
  | long => "LONG"
  | ulong => "ULONG"
  | longlong => "LONGLONG"
  | ulonglong => "ULONGLONG"
  | float => "FLOAT"
  | double => "DOUBLE"
  | longdouble => "LONGDOUBLE"
  | pointer => "POINTER"
  | void => "VOID"

def isFloating : BaseType → Bool
  | float | double | longdouble => true
  | _ => false

def isInteger : BaseType → Bool
  | float | double | longdouble | pointer | void => false
  | _ => true

def isArithmetic (b : BaseType) : Bool := b.isInteger || b.isFloating

/-- Whether values of the type carry a sign; plain `char` follows the target, whatever says so
there. -/
def isSigned (t : Target) : BaseType → Json
  | char => t.charIsSigned
  | schar | short | int | long | longlong | float | double | longdouble => .bool true
  | _ => .bool false

def sort : BaseType → TermSort
  | bool => .bool
  | float | double | longdouble => .real
  | _ => .int

def size (t : Target) : BaseType → Json
  | long | ulong => t.longSize
  | pointer => t.pointerSize
  | longdouble => t.longDoubleSize
  | bool | char | schar | uchar | void => .int 1
  | short | ushort => .int 2
  | int | uint | float => .int 4
  | longlong | ulonglong | double => .int 8

/-- The alignment in bytes: the size, bounded by what the target allows, and at least one. -/
def alignment (t : Target) (b : BaseType) : Except Error Scalar := do
  let natural ← (b.size t).smaller t.maxAlignment
  return (Scalar.int 1).max (← natural.asScalar)

def bitWidth (t : Target) : BaseType → Except Error Scalar
  | bool => .ok (.int 1)
  | b => do ((← (b.size t).asScalar).mul? (.int 8)).elim (.error .overflow) .ok

/-- The number of bits in front of which the values of the type end, apart from a sign. -/
def valueBits (t : Target) (b : BaseType) : Except Error Int := do
  match (← b.bitWidth t).int? with
  | some n => return if (b.isSigned t).isVoid then n else n - 1
  | none => .error .mistyped

/-- A power of two.  A large exponent asks for more memory than there is, and a very large one for
more than can be addressed. -/
def powerOfTwo (exponent : Int) : Except Error Int :=
  if exponent < 0 then .error .negativeShift
  else if 30 * (Int.pow 2 61 - 8) < exponent then .error .overflow
  else if Int.pow 2 36 < exponent then .error .memory
  else .ok (Int.pow 2 exponent.toNat)

/-- The inclusive range of an integer type; there is none without room for a value. -/
def bounds (t : Target) (b : BaseType) : Except Error (Option (Int × Int)) := do
  if !b.isInteger then return none
  if b = bool then return some (0, 1)
  let top ← powerOfTwo (← b.valueBits t)
  return some (if (b.isSigned t).isVoid then 0 else -top, top - 1)

end BaseType

end Branchwise
