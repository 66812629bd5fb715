import Branchwise.Guard.Token

/-!
# The guard parser

A recursive descent over six levels of binary operators, loosest first, then the unary operators and
the operands.  The parser remembers the furthest place at which a rule did not apply, where an error
is reported.
-/

namespace Branchwise.Guard

/-- What a parse of the front of a text leaves: the least number of characters left where a rule did
not apply, and the result with the rest of the text. -/
abbrev Outcome := Nat × Option (Reading × List Char)

def operators : Nat → List (String × BinaryOp)
  | 0 => [("||", .or)]
  | 1 => [("&&", .and)]
  | 2 => [("==", .eq), ("!=", .ne)]
  | 3 => [("<=", .le), (">=", .ge), ("<", .lt), (">", .gt)]
  | 4 => [("+", .add), ("-", .sub)]
  | 5 => [("*", .mul), ("/", .div), ("%", .rem)]
  | _ => []

def levels : Nat := 6

def operator? (level : Nat) (s : List Char) : Option (BinaryOp × List Char) :=
  (operators level).findSome? fun (symbol, op) => (Text.after? symbol.toList s).map (op, ·)

inductive Sign where
  | not
  | minus
  | plus
deriving DecidableEq, Repr

def sign? : List Char → Option (Sign × List Char)
  | '!' :: r => some (.not, r)
  | '-' :: r => some (.minus, r)
  | '+' :: r => some (.plus, r)
  | _ => none

/-- A prefix operator applied: a plus is dropped, and a minus is taken into a numeric literal. -/
def Sign.apply : Sign → Expr → Expr
  | .plus, e => e
  | .minus, .int n => .int (-n)
  | .minus, .real x => .real x.neg
  | .minus, e => .unary .neg e
  | .not, e => .unary .not e

def joined (op : BinaryOp) (l r : Reading) : Reading := do
  let l ← l
  let r ← r
  return .binary op l r

mutual

/-- An expression whose outermost binary operators are of a level or tighter. -/
def parseLevel : Nat → Nat → Nat → List Char → Outcome
  | 0, _, stall, _ => (stall, none)
  | fuel + 1, level, stall, s =>
    if level < levels then
      match parseLevel fuel (level + 1) stall s with
      | (stall, some (e, rest)) => parseChain fuel level e stall rest
      | (stall, none) => (stall, none)
    else parseUnary fuel stall s

def parseChain : Nat → Nat → Reading → Nat → List Char → Outcome
  | 0, _, e, stall, s => (stall, some (e, s))
  | fuel + 1, level, e, stall, s =>
    if s.isEmpty then (stall, some (e, s))
    else
      let t := skipBlanks s
      match operator? level t with
      | none => (min stall t.length, some (e, s))
      | some (op, r) =>
        match parseLevel fuel (level + 1) stall (skipBlanks r) with
        | (stall, some (e', rest)) => parseChain fuel level (joined op e e') stall rest
        | (stall, none) => (stall, some (e, s))

def parseUnary : Nat → Nat → List Char → Outcome
  | 0, stall, _ => (stall, none)
  | fuel + 1, stall, s =>
    match sign? s with
    | some (sign, r) =>
      match parseUnary fuel stall (skipBlanks r) with
      | (stall, some (e, rest)) => (stall, some (e.map sign.apply, rest))
      | (stall, none) => (min stall s.length, none)
    | none => parseOperand fuel (min stall s.length) s

def parseOperand : Nat → Nat → List Char → Outcome
  | 0, stall, _ => (stall, none)
  | fuel + 1, stall, s =>
    match s with
    | '(' :: r =>
      match parseLevel fuel 0 stall (skipBlanks r) with
      | (stall, some (e, rest)) =>
        match skipBlanks rest with
        | ')' :: rest => (stall, some (e, rest))
        | _ => (stall, none)
      | (stall, none) => (stall, none)
    | _ => (stall, atom? s)

end

def parseFuel (length : Nat) : Nat := 10 * (length + 1)

def parse (text : String) : Except GuardError Expr :=
  let s := text.toList
  let failed (fault : GuardFault) : Except GuardError Expr := .error ⟨text, fault⟩
  if s.all Text.isBlank then failed .empty
  else
    match parseLevel (parseFuel s.length) 0 s.length (skipBlanks s) with
    | (stall, none) => failed (.syntaxAt (s.length - stall + 1))
    | (_, some (reading, rest)) =>
      match skipBlanks rest with
      | [] =>
        match reading with
        | .ok e => .ok e
        | .error fault => failed fault
      | rest => failed (.syntaxAt (s.length - rest.length + 1))

def negate (text : String) : String := "!(" ++ text ++ ")"

/-- The text of the conjunction of several guards; blank ones do not count, and of none it is the
guard that always holds. -/
def conjoin (texts : List String) : String :=
  match texts.filter fun t => !Text.isAllBlank t with
  | [] => "1"
  | [t] => t
  | ts => Text.join " && " (ts.map fun t => "(" ++ t ++ ")")

end Branchwise.Guard
