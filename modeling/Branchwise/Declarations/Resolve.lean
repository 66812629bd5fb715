import Branchwise.Alias.Table
import Branchwise.Declarations.Basic

/-!
# What a type spelling stands for

The aliases of a unit, and after them those of an alias table, are followed from a spelling until a
pointer, a base type, a tagged name, or a name without an alias.  Stars and array lengths met on the
way are collected.
-/

namespace Branchwise

namespace Spelling

/-- The extent between brackets, from behind the opening one: a word or nothing, with blanks around
it; and what follows the closing bracket. -/
def extent? (cs : List Char) : Option (List Char × List Char) :=
  let cs := cs.dropWhile Text.isBlank
  let word := cs.takeWhile Text.isWord
  match (cs.dropWhile Text.isWord).dropWhile Text.isBlank with
  | ']' :: rest => some (word, rest)
  | _ => none

/-- The length that an extent gives; one that does not consist of digits counts as zero. -/
def lengthOf (word : List Char) : Except Error Nat :=
  if word.isEmpty || !word.all Text.isAnyDigit then .ok 0
  else (Json.str (String.ofList word)).toInt.map Int.toNat

/-- Takes the array extents out of a text; the number bounds its length. -/
def takeExtents : Nat → List Char → List Char × List (List Char)
  | 0, cs => (cs, [])
  | _ + 1, [] => ([], [])
  | fuel + 1, c :: cs =>
    match if c = '[' then extent? cs else none with
    | some (word, rest) =>
      let (kept, words) := takeExtents fuel rest
      (kept, word :: words)
    | none =>
      let (kept, words) := takeExtents fuel cs
      (c :: kept, words)

/-- A spelling without its stars and array extents, the number of stars, and the array lengths. -/
structure Parts where
  core : String
  stars : Nat
  dims : List Nat
deriving DecidableEq, Repr, Inhabited

def parts (s : String) : Except Error Parts := do
  let (kept, words) := takeExtents s.length s.toList
  let core := kept.map fun c => if c = '*' then ' ' else c
  return ⟨Text.join " " (Text.words (String.ofList core)), kept.count '*',
    ← words.mapM lengthOf⟩

def tagged? (s : String) : Option (EntityKind × String) :=
  [EntityKind.struct, .union, .enum].findSome? fun k => do
    let rest ← Text.after? k.name.toList s.toList
    let name := rest.dropWhile Text.isBlank
    if name.length < rest.length && !name.isEmpty && name.all Text.isWord then
      some (k, String.ofList name)
    else none

end Spelling

structure ResolvedType where
  spelling : String
  /-- The names from the first to the last, without stars and array extents. -/
  chain : List String
  core : String
  pointerDepth : Nat
  dims : List Nat
  base : Option BaseType
  aggregate : Option AggregateDecl
  enum : Option EnumDecl
deriving Repr, Inhabited

namespace ResolvedType

def isPointer (r : ResolvedType) : Bool := 0 < r.pointerDepth

def isResolved (r : ResolvedType) : Bool :=
  r.isPointer || r.base.isSome || r.aggregate.isSome || r.enum.isSome

def elementCount (r : ResolvedType) : Nat := r.dims.foldl (· * ·) 1

end ResolvedType

namespace Declarations

def aliasTarget? (d : Declarations) (aliases : Option AliasTable) (name : String) :
    Except Error (Option String) :=
  match d.typedef? (.str name) with
  | some a => return some (Spelling.normalize (← a.type.spelling))
  | none => .ok (aliases.bind fun t => t.resolve? (.str name))

/-- The end of a walk at a name that may be that of an aggregate or an enumeration. -/
def resolvedTo (r : ResolvedType) : Option Entity → Except Error ResolvedType
  | some (.aggregate a) => .ok { r with aggregate := some a }
  | some (.enum e) => return { r with
      enum := some e
      base := Spelling.base? (← e.underlyingType.spelling) }
  | _ => .ok r

def resolveLoop (d : Declarations) (aliases : Option AliasTable) :
    Nat → List String → ResolvedType → Except Error ResolvedType
  | 0, _, r => .error (.aliasCycle r.chain)
  | fuel + 1, seen, r =>
    if r.isPointer then .ok { r with base := some .pointer }
    else
      match Spelling.base? r.core with
      | some b => .ok { r with base := some b }
      | none =>
        match Spelling.tagged? r.core with
        | some (tag, name) => resolvedTo r (d.tagged? (.str name) (some tag))
        | none =>
          if seen.contains r.core then .error (.aliasCycle r.chain)
          else do
            match ← d.aliasTarget? aliases r.core with
            | none => resolvedTo r (d.tagged? (.str r.core) none)
            | some target =>
              let next ← Spelling.parts target
              d.resolveLoop aliases fuel (r.core :: seen) { r with
                chain := r.chain ++ [next.core]
                core := next.core
                pointerDepth := next.stars
                dims := r.dims ++ next.dims }

def resolve (d : Declarations) (aliases : Option AliasTable) (spelling : String) :
    Except Error ResolvedType := do
  let text := Spelling.normalize spelling
  let p ← Spelling.parts text
  let bound := d.typedefs.length + ((aliases.map AliasTable.size).getD 0) + 2
  d.resolveLoop aliases bound [] ⟨text, [p.core], p.core, p.stars, p.dims, none, none, none⟩

def enumerators (d : Declarations) (type : Json) :
    Except Error (Option (List (Json × Scalar))) := do
  let name ← match Spelling.tagged? (Spelling.normalize (← type.spelling)) with
    | some (_, name) => pure (Json.str name)
    | none => type.asKey
  match d.find? name (some .enum) with
  | some (.enum e) => return some (← e.resolved)
  | _ => return none

/-- Registers an alias of a unit in a table, unless it is a pointer to a function; tells whether it
was registered. -/
def registerAlias (source : Json) (t : AliasTable) (a : AliasDecl) :
    Except Error (Bool × AliasTable) := do
  if ← a.isFunctionPointer then return (false, t)
  return (true, ← t.register a.name (.str (Spelling.normalize (← a.spelling))) source .null .null)

/-- Registers the aliases of a unit in a table, up to the first that cannot be; tells how many there
are. -/
def registerAliases (d : Declarations) (source : Json) (t : AliasTable) :
    Except Error Nat × AliasTable :=
  d.typedefs.foldl (fun (acc : Except Error Nat × AliasTable) a =>
    match acc.1 with
    | .error e => (.error e, acc.2)
    | .ok n =>
      match registerAlias source acc.2 a with
      | .ok (isNew, t) => (.ok (if isNew then n + 1 else n), t)
      | .error e => (.error e, acc.2)) (.ok 0, t)

end Declarations

end Branchwise
