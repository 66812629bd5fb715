import Branchwise.Domain.Basic
import Branchwise.Logic.Term

/-!
# From guards to terms

A guard becomes a term and a list of side conditions, which say that no divisor that is evaluated is
zero.  A number from a literal or a named constant enters with the value of its shortest decimal.
-/

namespace Branchwise

structure NameScope where
  sort : Json → TermSort
  symbols : Table String Json

/-- A term with the conditions under which its divisions are defined. -/
structure Lowered where
  term : AnyTerm
  sides : List (Term .bool)

namespace Lowering

def ofBinary (x : Binary64) : Except Error AnyTerm :=
  match x.decimalValue? with
  | some q => .ok (.real (.real q))
  | none => .error .solver

def ofInt (n : Int) : Except Error AnyTerm :=
  if Number.isWritable n then .ok (.int (.int n)) else .error (.longInteger none)

def ofScalar : Scalar → Except Error AnyTerm
  | .bool b => .ok (.bool (.bool b))
  | .int n => ofInt n
  | .real x => ofBinary x

def ofConstant : Json → Except Error AnyTerm
  | .str s =>
    match Number.numeral? s with
    | some q => .ok (.real (.real q))
    | none => .error .solver
  | v =>
    match v.scalar? with
    | some x => ofScalar x
    | none => .error .solver

/-- The side conditions of a right operand, as far as it is evaluated. -/
def whenEvaluated (op : BinaryOp) (left : AnyTerm) (sides : List (Term .bool)) :
    List (Term .bool) :=
  if sides.isEmpty then []
  else
    match op with
    | .and => [.implies left.asBool (.all sides)]
    | .or => [.implies (.not left.asBool) (.all sides)]
    | _ => sides

def comparison? : BinaryOp → Option Comparison
  | .eq => some .eq
  | .ne => some .ne
  | .le => some .le
  | .ge => some .ge
  | .lt => some .lt
  | .gt => some .gt
  | _ => none

/-- A division or a remainder, with the condition that the divisor is not zero; `whole` is the
expression that it comes from. -/
def division (whole : Expr) (isRemainder : Bool) : NumberPair → Except Error Lowered
  | .int a b =>
    .ok ⟨.int (if isRemainder then .rem a b else .quot a b), [.intRel .ne b (.int 0)]⟩
  | .real a b =>
    if isRemainder then .error (.guard ⟨whole.text, .floatingRemainder⟩)
    else .ok ⟨.real (.ratio a b), [.realRel .ne b (.real 0)]⟩

def binary (whole : Expr) (op : BinaryOp) (l r : AnyTerm) : Except Error Lowered :=
  match op with
  | .and => .ok ⟨.bool (.and l.asBool r.asBool), []⟩
  | .or => .ok ⟨.bool (.or l.asBool r.asBool), []⟩
  | .add => .ok ⟨(l.promote r).combine .add, []⟩
  | .sub => .ok ⟨(l.promote r).combine .sub, []⟩
  | .mul => .ok ⟨(l.promote r).combine .mul, []⟩
  | .div => division whole false (l.promote r)
  | .rem => division whole true (l.promote r)
  | op =>
    match op, l, r with
    | .eq, .bool a, .bool b => .ok ⟨.bool (.iff a b), []⟩
    | .ne, .bool a, .bool b => .ok ⟨.bool (.not (.iff a b)), []⟩
    | op, l, r => .ok ⟨.bool ((l.promote r).compare ((comparison? op).getD .eq)), []⟩

def negative (t : AnyTerm) : AnyTerm :=
  match t.asNumber with
  | .int t => .int (.negInt t)
  | t => .real (.negReal t.asReal)

def lower (scope : NameScope) : Expr → Except Error Lowered
  | .name x =>
    match scope.symbols.get? x with
    | some v => (ofConstant v).map fun t => ⟨t, []⟩
    | none => .ok ⟨.var (scope.sort (.str x)) x, []⟩
  | .bool b => .ok ⟨.bool (.bool b), []⟩
  | .int n => (ofInt n).map fun t => ⟨t, []⟩
  | .real x => (ofBinary x).map fun t => ⟨t, []⟩
  | .unary .not e => do
    let e ← lower scope e
    return ⟨.bool (.not e.term.asBool), e.sides⟩
  | .unary .neg e => do
    let e ← lower scope e
    return ⟨negative e.term, e.sides⟩
  | .binary op l r => do
    let left ← lower scope l
    let right ← lower scope r
    let t ← binary (.binary op l r) op left.term right.term
    return ⟨t.term, left.sides ++ whenEvaluated op left.term right.sides ++ t.sides⟩

end Lowering

/-! ## Domains as conditions

The condition that a variable lies in its domain: its exact value, its listed values, its bounds and
its guard, as far as they are given.  A domain without values is the condition `false`. -/

def Guard.ofJson : Json → Except Error Expr
  | .str text => (Guard.parse text).mapError Error.guard
  | .null => .error (.guard ⟨"", .empty⟩)
  | j => .error (if j.isKey then .notRecord else .mistyped)

structure Condition where
  term : Term .bool
  sides : List (Term .bool)

namespace Encoding

/-- The name of the unknown that a number names, by its last 32 bits, which have to form a natural
number.  It cannot stand in a guard. -/
def numberedName (n : Int) : Except Error String :=
  let index := n.bmod (Nat.pow 2 32)
  if index < 0 then .error .solver else .ok ("\x00" ++ toString index)

/-- The name of the unknown that stands for a variable: a text up to its first null character, the
empty text for null, or a number. -/
def unknownName : Json → Except Error String
  | .str s => .ok (String.ofList (s.toList.takeWhile fun c => c.toNat ≠ 0))
  | .null => .ok ""
  | .bool b => numberedName (if b then 1 else 0)
  | .int n => numberedName n
  | .real _ => .error .badName
  | .arr _ | .obj _ => .error .mistyped

def compareWith (r : Comparison) (x : AnyTerm) (v : Json) : Except Error (Term .bool) := do
  return (x.promote (← Lowering.ofConstant v)).compare r

def guard (scope : NameScope) (e : Expr) : Except Error Condition := do
  let l ← Lowering.lower scope e
  return ⟨l.term.asBool, l.sides⟩

def compareGiven (r : Comparison) (x : AnyTerm) (v : Json) : Except Error (List (Term .bool)) :=
  if v.isNull then .ok [] else return [← compareWith r x v]

def listed (x : AnyTerm) : Option (List Json) → Except Error (List (Term .bool))
  | some vs => return [.any (← vs.mapM (compareWith .eq x))]
  | none => .ok []

def domain (scope : NameScope) (d : Domain) : Except Error Condition := do
  let name ← unknownName d.variableName
  if ← d.isEmpty then return ⟨.bool false, []⟩
  let x := AnyTerm.var (scope.sort d.variableName) name
  let exact ← compareGiven .eq x d.exact
  let listed ← listed x d.allowed
  let lower ← compareGiven .ge x d.lower
  let upper ← compareGiven .le x d.upper
  let data := exact ++ listed ++ lower ++ upper
  if d.guard.isVoid then return ⟨.all data, []⟩
  let c ← guard scope (← Guard.ofJson d.guard)
  return ⟨.all (data ++ [c.term]), c.sides⟩

end Encoding

end Branchwise
