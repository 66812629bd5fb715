import Branchwise.CType.Base

/-!
# Type spellings

A spelling is read as a list of pieces: words, stars and bracketed array suffixes; everything else
is skipped.  Qualifiers and storage classes do not count.  A spelling that is made of specifier
words alone names a base type, and a spelling with a star names a pointer.
-/

namespace Branchwise

inductive SpellingPiece where
  | star
  | array (text : List Char)
  | word (text : String)
deriving DecidableEq, Repr, Inhabited

namespace SpellingPiece

/-- The rest of a bracketed suffix after its opening bracket: what precedes the first closing
bracket, and what follows it. -/
def closeBracket : List Char → Option (List Char × List Char)
  | [] => none
  | ']' :: r => some ([], r)
  | c :: r => (closeBracket r).map fun (a, b) => (c :: a, b)

def scan : Nat → List Char → List SpellingPiece
  | 0, _ => []
  | _, [] => []
  | fuel + 1, c :: r =>
    if c = '*' then star :: scan fuel r
    else if c = '[' then
      match closeBracket r with
      | some (inner, rest) => array ('[' :: (inner ++ [']'])) :: scan fuel rest
      | none => scan fuel r
    else if Text.isNameStart c then
      let tail := r.takeWhile Text.isNameChar
      word (String.ofList (c :: tail)) :: scan fuel (r.drop tail.length)
    else scan fuel r

def ofSpelling (s : String) : List SpellingPiece := scan s.length s.toList

end SpellingPiece

namespace Spelling

open SpellingPiece

def qualifiers : List String := [
  "const", "volatile", "restrict", "__restrict", "__restrict__", "__const", "__volatile__",
  "static", "extern", "register", "inline", "__inline", "__inline__", "auto", "_Atomic",
  "thread_local", "_Thread_local"]

def tagKeywords : List String := ["struct", "union", "enum"]

def specifiers : List String := [
  "signed", "unsigned", "char", "short", "int", "long", "float", "double", "void", "_Bool", "bool"]

def isQualifier : SpellingPiece → Bool
  | .word w => qualifiers.contains w
  | _ => false

def pieces (s : String) : List SpellingPiece := (ofSpelling s).filter fun p => !isQualifier p

def wordsOf (ps : List SpellingPiece) : List String :=
  ps.filterMap fun | .word w => some w | _ => none

def arraysOf (ps : List SpellingPiece) : List (List Char) :=
  ps.filterMap fun | .array a => some (a.filter (· ≠ ' ')) | _ => none

def starsOf (ps : List SpellingPiece) : Nat := (ps.filter (· = .star)).length

/-- The canonical spelling: words, then stars, then array suffixes, without qualifiers. -/
def normalize (s : String) : String :=
  let ps := pieces s
  let stars := starsOf ps
  Text.join " " (wordsOf ps)
    ++ (if stars = 0 then "" else " " ++ String.ofList (.replicate stars '*'))
    ++ String.join ((arraysOf ps).map String.ofList)

def pointerDepth (s : String) : Nat := starsOf (ofSpelling s)

def isPointer (s : String) : Bool := (ofSpelling s).any (· = .star)

def isArray (s : String) : Bool := (ofSpelling s).any fun | .array _ => true | _ => false

def stripTag (s : String) : String :=
  Text.join " " ((Text.words (normalize s)).filter fun w => !tagKeywords.contains w)

def baseOfWords (ws : List String) : Option BaseType :=
  let longs := ws.count "long"
  let unsigned := ws.contains "unsigned"
  let signed := ws.contains "signed"
  let alone (b : BaseType) : Option BaseType := if ws.length = 1 then some b else none
  if ws.contains "_Bool" || ws.contains "bool" then alone .bool
  else if ws.contains "void" then alone .void
  else if ws.contains "float" then alone .float
  else if ws.contains "double" then
    if longs = 1 && !(signed || unsigned) then some .longdouble
    else if longs = 0 then alone .double
    else none
  else if ws.contains "char" then
    if longs ≠ 0 || ws.contains "short" || ws.contains "int" then none
    else some (if unsigned then .uchar else if signed then .schar else .char)
  else if ws.contains "short" then some (if unsigned then .ushort else .short)
  else if 2 ≤ longs then some (if unsigned then .ulonglong else .longlong)
  else if longs = 1 then some (if unsigned then .ulong else .long)
  else some (if unsigned then .uint else .int)

/-- The base type a spelling names; `none` for aliases, tags and unknown names. -/
def base? (s : String) : Option BaseType :=
  let ps := pieces s
  if ps.contains .star then some .pointer
  else
    let ws := wordsOf ps
    if ws.isEmpty || ws.any (fun w => !specifiers.contains w) then none else baseOfWords ws

def sort (s : String) : TermSort := ((base? s).map BaseType.sort).getD .int

def mentions (needle : String) (s : String) : Bool := go false s.toList
where
  go (inWord : Bool) : List Char → Bool
    | [] => false
    | c :: r =>
      let here := !inWord &&
        match Text.after? needle.toList (c :: r) with
        | some (d :: _) => !Text.isWord d
        | some [] => true
        | none => false
      here || go (Text.isWord c) r

end Spelling

end Branchwise
