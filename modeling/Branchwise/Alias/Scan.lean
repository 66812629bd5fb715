import Branchwise.Text.Words

/-!
# Aliases in C text

Finds the simple alias declarations `typedef TYPE NAME SUFFIXES;` of a C text.  Comments count as
one blank.  The type is as short as it can be and holds no semicolon, brace or parenthesis, so
records with a body and pointers to functions are passed over.
-/

namespace Branchwise.Alias

/-- An alias declaration as written: its name, and its type with the array suffixes. -/
structure Declaration where
  name : String
  type : String
deriving DecidableEq, Repr, Inhabited

def afterBlock : List Char → Option (List Char)
  | '*' :: '/' :: r => some r
  | _ :: r => afterBlock r
  | [] => none

/-- A text with every comment replaced by a blank; `fuel` bounds its length. -/
def dropComments : Nat → List Char → List Char
  | 0, _ => []
  | _, [] => []
  | fuel + 1, c :: r =>
    match c, r with
    | '/', '*' :: t =>
      match afterBlock t with
      | some rest => ' ' :: dropComments fuel rest
      | none => c :: dropComments fuel r
    | '/', '/' :: t => ' ' :: dropComments fuel (t.dropWhile (· ≠ '\n'))
    | _, _ => c :: dropComments fuel r

/-- The array suffixes at the front of a text; `fuel` bounds their number. -/
def suffixes : Nat → List Char → List Char × List Char
  | 0, s => ([], s)
  | fuel + 1, s =>
    match s with
    | '[' :: r =>
      let inner := r.takeWhile (· ≠ ']')
      match r.drop inner.length with
      | ']' :: rest =>
        let (more, rest) := suffixes fuel rest
        ('[' :: (inner ++ ']' :: more), rest)
      | _ => ([], s)
    | _ => ([], s)

/-- The name, array suffixes and semicolon that end a declaration, at the front of a text.
`prior` is the character before it; the name has to begin a word. -/
def ending? (prior : Char) (s : List Char) : Option (List Char × List Char × List Char) :=
  let t := s.dropWhile Text.isBlank
  let begins := s.head?.any Text.isBlank || !Text.isWord prior
  match t with
  | c :: r =>
    if begins && Text.isNameStart c then
      let tail := r.takeWhile Text.isWord
      let rest := (r.drop tail.length).dropWhile Text.isBlank
      let (arrays, rest) := if rest.head? = some '[' then suffixes rest.length rest else ([], rest)
      match rest.dropWhile Text.isBlank with
      | ';' :: rest => some (c :: tail, arrays, rest)
      | _ => none
    else none
  | [] => none

def isTypeChar (c : Char) : Bool := !(c = ';' || c = '\x7b' || c = '\x7d' || c = '(' || c = ')')

/-- The shortest type at the front of a text that is followed by an ending; the type read so far
is in reverse. -/
def body? (acc : List Char) : List Char → Option (List Char × List Char × List Char × List Char)
  | [] => none
  | c :: r =>
    if isTypeChar c then
      match ending? c r with
      | some (name, arrays, rest) => some ((c :: acc).reverse, name, arrays, rest)
      | none => body? (c :: acc) r
    else none

/-- The declaration after the keyword: a blank, a type and an ending.  When the type is missing, a
second blank can stand for it; such a declaration counts as read and declares nothing. -/
def declaration? (s : List Char) : Option (Option Declaration × List Char) :=
  let t := s.dropWhile Text.isBlank
  if t.length = s.length then none
  else
    match body? [] t with
    | some (type, name, arrays, rest) =>
      let type := Text.join " " (Text.words (String.ofList type))
      let name := String.ofList name
      if type.isEmpty || ["struct", "union", "enum"].contains name then some (none, rest)
      else some (some ⟨name, type ++ String.ofList arrays⟩, rest)
    | none =>
      if t.length + 2 ≤ s.length then
        (ending? ' ' t).map fun (_, _, rest) => (none, rest)
      else none

/-- The declarations of a text without comments; `fuel` bounds its length. -/
def declarations : Nat → List Char → List Declaration
  | 0, _ => []
  | _, [] => []
  | fuel + 1, c :: r =>
    match (Text.after? "typedef".toList (c :: r)).bind declaration? with
    | some (some d, rest) => d :: declarations fuel rest
    | some (none, rest) => declarations fuel rest
    | none => declarations fuel r

def scan (text : String) : List Declaration :=
  let bare := dropComments text.length text.toList
  declarations bare.length bare

end Branchwise.Alias
