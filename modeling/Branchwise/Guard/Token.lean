import Branchwise.Guard.Expr

/-!
# Lexemes of guards

Each scanner takes the longest lexeme of its class off the front of a text and returns what follows.
Digits may be of any script.  A numeric or character literal can have a form without a value; the
fault is kept as its reading and reported only if the whole text parses.
-/

namespace Branchwise.Guard

open Text (isLiteralDigit isWhiteSpace isNameStart isNameChar isWord)

abbrev Reading := Except GuardFault Expr

def skipBlanks (s : List Char) : List Char := s.dropWhile isWhiteSpace

def scanExponent (s : List Char) : Option (List Char × List Char) :=
  match s with
  | e :: r =>
    if e = 'e' || e = 'E' then
      let (sign, r) := match r with
        | '+' :: t => (['+'], t)
        | '-' :: t => (['-'], t)
        | t => ([], t)
      let digits := r.takeWhile isLiteralDigit
      if digits.isEmpty then none
      else some (e :: (sign ++ digits), r.drop digits.length)
    else none
  | [] => none

def scanReal (s : List Char) : Option (List Char × List Char) :=
  let whole := s.takeWhile isLiteralDigit
  let withExponent (lexeme rest : List Char) :=
    match scanExponent rest with
    | some (e, rest) => (lexeme ++ e, rest)
    | none => (lexeme, rest)
  match s.drop whole.length with
  | '.' :: r =>
    let fraction := r.takeWhile isLiteralDigit
    if whole.isEmpty && fraction.isEmpty then none
    else some (withExponent (whole ++ '.' :: fraction) (r.drop fraction.length))
  | r =>
    if whole.isEmpty then none
    else (scanExponent r).map fun (e, rest) => (whole ++ e, rest)

def isRealSuffix (c : Char) : Bool := c = 'f' || c = 'F' || c = 'l' || c = 'L'

def realReading (number suffix : List Char) : Reading :=
  match Number.unsignedReal? some number with
  | some d => .ok (.real (Number.ofDecimal d))
  | none => .error (.notReal (String.ofList number) (String.ofList (number ++ suffix)))

def real? (s : List Char) : Option (Reading × List Char) :=
  (scanReal s).map fun (number, rest) =>
    let suffix := (rest.take 1).filter isRealSuffix
    (realReading number suffix, rest.drop suffix.length)

/-- The value of the digits of an integer literal: octal after a leading zero, decimal otherwise. -/
def digitsReading (digits : List Char) : Reading :=
  match digits with
  | '0' :: _ :: _ => reading 8
  | _ =>
    let known := digits.takeWhile Text.isDigit
    if Number.maxDecimalDigits < known.length then .error (.tooLong known.length) else reading 10
where
  reading (base : Nat) : Reading :=
    match Number.ofDigits? base digits with
    | some n => .ok (.int n)
    | none => .error (.notInteger base (String.ofList digits))

def isIntSuffix (c : Char) : Bool := c = 'u' || c = 'U' || c = 'l' || c = 'L'

def int? (s : List Char) : Option (Reading × List Char) :=
  let hexRest : Option (List Char) := match s with
    | '0' :: x :: r => if x = 'x' || x = 'X' then some r else none
    | _ => none
  let hexDigits := (hexRest.getD []).takeWhile fun c => (Text.hexValue? c).isSome
  if !hexDigits.isEmpty then
    let rest := (hexRest.getD []).drop hexDigits.length
    some (.ok (.int ((Number.ofHexDigits? 16 hexDigits).getD 0)), rest.dropWhile isIntSuffix)
  else
    let digits := s.takeWhile isLiteralDigit
    if digits.isEmpty then none
    else some (digitsReading digits, (s.drop digits.length).dropWhile isIntSuffix)

def escapeCode? : Char → Option Int
  | 'n' => some 10
  | 't' => some 9
  | 'r' => some 13
  | '0' => some 0
  | '\\' => some 92
  | '\'' => some 39
  | '"' => some 34
  | 'a' => some 7
  | 'b' => some 8
  | 'f' => some 12
  | 'v' => some 11
  | _ => none

def char? (s : List Char) : Option (Reading × List Char) :=
  match s with
  | '\'' :: '\\' :: c :: '\'' :: r =>
    if c = '\n' then none
    else
      match escapeCode? c with
      | some n => some (.ok (.int n), r)
      | none => some (.error (.unknownEscape (String.ofList ['\\', c])), r)
  | '\'' :: c :: '\'' :: r =>
    if c = '\\' || c = '\'' then none else some (.ok (.int c.toNat), r)
  | _ => none

def endsWord : List Char → Bool
  | [] => true
  | c :: _ => !isWord c

def bool? (s : List Char) : Option (Reading × List Char) :=
  let word (text : String) (b : Bool) := do
    let rest ← Text.after? text.toList s
    if endsWord rest then some (Except.ok (Expr.bool b), rest) else none
  (word "true" true).orElse fun _ => word "false" false

def identifier? (s : List Char) : Option (List Char × List Char) :=
  match s with
  | c :: r =>
    if isNameStart c then
      let tail := r.takeWhile isNameChar
      some (c :: tail, r.drop tail.length)
    else none
  | [] => none

def pathStep? (s : List Char) : Option (List Char × List Char) :=
  match skipBlanks s with
  | '.' :: r => (identifier? (skipBlanks r)).map fun (x, rest) => ('.' :: x, rest)
  | '-' :: '>' :: r => (identifier? (skipBlanks r)).map fun (x, rest) => ('-' :: '>' :: x, rest)
  | '[' :: r =>
    let r := skipBlanks r
    let index := r.takeWhile isNameChar
    match skipBlanks (r.drop index.length) with
    | ']' :: rest => if index.isEmpty then none else some ('[' :: (index ++ [']']), rest)
    | _ => none
  | _ => none

/-- The member and index steps at the front of a text; `fuel` bounds their number. -/
def pathSteps : Nat → List Char → List Char × List Char
  | 0, s => ([], s)
  | fuel + 1, s =>
    match pathStep? s with
    | some (step, rest) =>
      let (steps, rest) := pathSteps fuel rest
      (step ++ steps, rest)
    | none => ([], s)

/-- A name: an identifier with its member and index steps, as one text without blanks. -/
def name? (s : List Char) : Option (Reading × List Char) := do
  let (x, rest) ← identifier? s
  let (steps, rest) := pathSteps rest.length rest
  return (.ok (.name (String.ofList (x ++ steps))), rest)

def atom? (s : List Char) : Option (Reading × List Char) :=
  (real? s).or ((int? s).or ((char? s).or ((bool? s).or (name? s))))

end Branchwise.Guard
