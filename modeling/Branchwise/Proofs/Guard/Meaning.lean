import Branchwise.Logic.Lowering
import Branchwise.Proofs.Number.Shortest

/-!
# The C meaning of guards

A guard is evaluated as C evaluates it, on unbounded integers and exact reals.  Operands are
evaluated from left to right, and `&&` and `||` leave their right operand out when the left one
decides.  The reals may be any ordered field.
-/

namespace Branchwise

inductive EvaluationFault where
  | divisionByZero
  | floatingRemainder
  | notFinite
deriving DecidableEq

inductive Value (K : Type) where
  | int (n : Int)
  | real (q : K)
  | bool (b : Bool)
deriving DecidableEq

structure InputValues (K : Type) where
  int : String → Int
  real : String → K
  bool : String → Bool

namespace InputValues

variable {K : Type}

def get (a : InputValues K) : TermSort → String → Value K
  | .int, x => .int (a.int x)
  | .real, x => .real (a.real x)
  | .bool, x => .bool (a.bool x)

end InputValues

namespace Value

variable {K : Type} [Field K] [LinearOrder K]

def truth : Value K → Bool
  | int n => n ≠ 0
  | real q => q ≠ 0
  | bool b => b

def toReal : Value K → K
  | int n => n
  | real q => q
  | bool b => if b then 1 else 0

def number : Value K → Value K
  | bool b => int (if b then 1 else 0)
  | v => v

/-- An operation on two numbers, done on integers if both are and on reals otherwise. -/
def onNumbers {α : Type} (onInt : Int → Int → α) (onReal : K → K → α) (a b : Value K) : α :=
  match a.number, b.number with
  | int m, int n => onInt m n
  | a, b => onReal a.toReal b.toReal

def neg (v : Value K) : Value K :=
  match v.number with
  | int n => int (-n)
  | v => real (-v.toReal)

def add : Value K → Value K → Value K :=
  onNumbers (fun m n => int (m + n)) (fun p q => real (p + q))

def sub : Value K → Value K → Value K :=
  onNumbers (fun m n => int (m - n)) (fun p q => real (p - q))

def mul : Value K → Value K → Value K :=
  onNumbers (fun m n => int (m * n)) (fun p q => real (p * q))

def div : Value K → Value K → Except EvaluationFault (Value K) :=
  onNumbers (fun m n => if n = 0 then .error .divisionByZero else .ok (int (m.tdiv n)))
    (fun p q => if q = 0 then .error .divisionByZero else .ok (real (p / q)))

def rem : Value K → Value K → Except EvaluationFault (Value K) :=
  onNumbers (fun m n => if n = 0 then .error .divisionByZero else .ok (int (m.tmod n)))
    (fun _ _ => .error .floatingRemainder)

def eq (a b : Value K) : Bool :=
  onNumbers (fun m n => decide (m = n)) (fun p q => decide (p = q)) a b

def lt (a b : Value K) : Bool :=
  onNumbers (fun m n => decide (m < n)) (fun p q => decide (p < q)) a b

def le (a b : Value K) : Bool :=
  onNumbers (fun m n => decide (m ≤ n)) (fun p q => decide (p ≤ q)) a b

/-- The operators whose operands are both evaluated; the logical ones depend on whether their
operands are true. -/
def operate (op : BinaryOp) (a b : Value K) : Except EvaluationFault (Value K) :=
  match op with
  | .or => .ok (bool (a.truth || b.truth))
  | .and => .ok (bool (a.truth && b.truth))
  | .eq => .ok (bool (a.eq b))
  | .ne => .ok (bool (!a.eq b))
  | .le => .ok (bool (a.le b))
  | .ge => .ok (bool (b.le a))
  | .lt => .ok (bool (a.lt b))
  | .gt => .ok (bool (b.lt a))
  | .add => .ok (a.add b)
  | .sub => .ok (a.sub b)
  | .mul => .ok (a.mul b)
  | .div => a.div b
  | .rem => a.rem b

/-- The value of a constant; a binary number has that of its shortest decimal. -/
def ofScalar : Scalar → Except EvaluationFault (Value K)
  | .bool b => .ok (bool b)
  | .int n => .ok (int n)
  | .real x =>
    match x.decimalValue? with
    | some q => .ok (real (q : K))
    | none => .error .notFinite

def ofConstant : Json → Except EvaluationFault (Value K)
  | .str s =>
    match Number.numeral? s with
    | some q => .ok (real (q : K))
    | none => .error .notFinite
  | v =>
    match v.scalar? with
    | some x => ofScalar x
    | none => .error .notFinite

end Value

namespace Expr

section Evaluation

variable {K : Type} [Field K] [LinearOrder K]

/-- The value that an operand on the left of `&&` or `||` gives without the right one. -/
def decided? (op : BinaryOp) (left : Value K) : Option (Value K) :=
  match op, left.truth with
  | .and, false => some (.bool false)
  | .or, true => some (.bool true)
  | _, _ => none

def evaluate (scope : NameScope) (a : InputValues K) : Expr → Except EvaluationFault (Value K)
  | name x =>
    match scope.symbols.get? x with
    | some c => Value.ofConstant c
    | none => .ok (a.get (scope.sort (.str x)) x)
  | int n => .ok (.int n)
  | real x => Value.ofScalar (.real x)
  | bool b => .ok (.bool b)
  | unary .not e => (e.evaluate scope a).map fun v => .bool (!v.truth)
  | unary .neg e => (e.evaluate scope a).map Value.neg
  | binary op l r => do
    let left ← l.evaluate scope a
    match decided? op left with
    | some v => return v
    | none =>
      let right ← r.evaluate scope a
      Value.operate op left right

end Evaluation

/-! ## Guards that can be lowered -/

def sortOfConstant : Json → TermSort
  | .bool _ => .bool
  | .real _ | .str _ => .real
  | _ => .int

/-- The sort of numbers that the usual conversions bring two operands to. -/
def commonSort : TermSort → TermSort → TermSort
  | .real, _ => .real
  | _, .real => .real
  | _, _ => .int

def resultSort : BinaryOp → TermSort → TermSort → TermSort
  | .add, s, t | .sub, s, t | .mul, s, t | .div, s, t | .rem, s, t => commonSort s t
  | _, _, _ => .bool

def sortIn (scope : NameScope) : Expr → TermSort
  | name x =>
    match scope.symbols.get? x with
    | some c => sortOfConstant c
    | none => scope.sort (.str x)
  | int _ => .int
  | real _ => .real
  | bool _ => .bool
  | unary .not _ => .bool
  | unary .neg e => commonSort (e.sortIn scope) .int
  | binary op l r => resultSort op (l.sortIn scope) (r.sortIn scope)

def NoFloatingRemainder (scope : NameScope) : Expr → Prop
  | unary _ e => e.NoFloatingRemainder scope
  | binary op l r =>
    l.NoFloatingRemainder scope ∧ r.NoFloatingRemainder scope ∧
      (op = .rem → l.sortIn scope ≠ .real ∧ r.sortIn scope ≠ .real)
  | _ => True

end Expr

/-- Whether a constant is a finite number; an integer also has to be one that can be written. -/
def Scalar.IsFinite : Scalar → Prop
  | .bool _ => True
  | .int n => Number.isWritable n
  | .real x => x.isFinite ∧ x.FitsFormat

def Json.IsFiniteConstant : Json → Prop
  | .str s => (Number.numeral? s).isSome
  | v => ∃ x, v.scalar? = some x ∧ x.IsFinite

/-- Whether all literals of a guard, and all named constants it refers to, are finite numbers. -/
def Expr.HasFiniteLiterals (scope : NameScope) : Expr → Prop
  | name x => ∀ c, scope.symbols.get? x = some c → c.IsFiniteConstant
  | int n => (Scalar.int n).IsFinite
  | real x => (Scalar.real x).IsFinite
  | bool _ => True
  | unary _ e => e.HasFiniteLiterals scope
  | binary _ l r => l.HasFiniteLiterals scope ∧ r.HasFiniteLiterals scope

end Branchwise
