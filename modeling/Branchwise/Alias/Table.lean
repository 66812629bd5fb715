import Branchwise.Alias.Scan
import Branchwise.CType.Spelling
import Branchwise.Domain.Basic

/-!
# Alias tables

An alias table maps a type name to the spelling it stands for, with optional bounds of its own.  A
chain of aliases that comes back to one of its spellings is an error.  The numeric description of an
alias is derived when it is first asked for and kept until the next change of the table.
-/

namespace Branchwise

/-- An alias as it was registered; a bound that is null is none. -/
structure AliasEntry where
  target : String
  source : Json
  lower : Json
  upper : Json
deriving Repr, Inhabited

structure AliasMapping where
  userType : Json
  baseType : String
  lower : Json
  upper : Json
  size : Json
  source : Json
deriving Repr, Inhabited

/-- Where a chain of aliases leads: the spellings from the first on, and the base type of the
last. -/
structure AliasChain where
  chain : List String
  ultimate : String
  base : Option BaseType
deriving DecidableEq, Repr, Inhabited

def AliasChain.hops (c : AliasChain) : Nat := c.chain.length - 1

structure AliasTable where
  abi : Target
  entries : Table Json AliasEntry
  memo : Table Json AliasMapping
deriving Repr, Inhabited

namespace AliasTable

def standardAliases : List (String × String) := [
  ("int8_t", "signed char"), ("uint8_t", "unsigned char"), ("int16_t", "short"),
  ("uint16_t", "unsigned short"), ("int32_t", "int"), ("uint32_t", "unsigned int"),
  ("int64_t", "long long"), ("uint64_t", "unsigned long long"), ("intptr_t", "long"),
  ("uintptr_t", "unsigned long"), ("size_t", "unsigned long"), ("ssize_t", "long"),
  ("ptrdiff_t", "long"), ("bool", "_Bool"), ("INT8", "signed char"), ("UINT8", "unsigned char"),
  ("INT16", "short"), ("UINT16", "unsigned short"), ("INT32", "int"), ("UINT32", "unsigned int"),
  ("INT64", "long long"), ("UINT64", "unsigned long long"), ("BYTE", "unsigned char"),
  ("WORD", "unsigned short"), ("DWORD", "unsigned int")]

def empty (t : Target) : AliasTable := ⟨t, .empty, .empty⟩

/-- The table of the standard names; `BOOL` is an `int` between zero and one. -/
def standard (t : Target) : AliasTable :=
  let plain := standardAliases.foldl (fun (es : Table Json AliasEntry) p =>
    es.put (.str p.1) ⟨p.2, .str "Predefined", .null, .null⟩) .empty
  ⟨t, plain.put (.str "BOOL") ⟨"int", .str "Predefined", .int 0, .int 1⟩, .empty⟩

/-! ## Changes -/

def put (t : AliasTable) (name : Json) (e : AliasEntry) : AliasTable :=
  { t with entries := t.entries.put name e, memo := .empty }

/-- Adds or replaces an alias; neither its name nor its spelling may be empty. -/
def register (t : AliasTable) (user base source lower upper : Json) : Except Error AliasTable := do
  let user ← user.strip
  let target := Spelling.normalize (← base.spelling)
  if user.isEmpty || target.isEmpty then throw (.badAlias user base)
  return t.put (.str user) ⟨target, source, lower, upper⟩

def unregister (t : AliasTable) (name : Json) : Bool × AliasTable :=
  (t.entries.contains name, { t with entries := t.entries.erase name, memo := .empty })

/-- Registers the alias declarations of a C text; tells how many there were. -/
def registerText (t : AliasTable) (text : String) (source : Json) : Nat × AliasTable :=
  let found := Alias.scan text
  let entries := found.map fun d =>
    (Json.str d.name, (⟨Spelling.normalize d.type, source, .null, .null⟩ : AliasEntry))
  (found.length, entries.foldl (fun t e => t.put e.1 e.2) { t with memo := .empty })

/-! ## Queries -/

def size (t : AliasTable) : Nat := t.entries.size

def contains (t : AliasTable) (name : Json) : Bool := t.entries.contains name

def resolve? (t : AliasTable) (name : Json) : Option String :=
  (t.entries.get? name).map AliasEntry.target

def follow (t : AliasTable) : Nat → String → List String → Except Error AliasChain
  | 0, _, chain => .error (.aliasCycle chain.reverse)
  | fuel + 1, current, chain =>
    match t.resolve? (.str current) with
    | none => .ok ⟨chain.reverse, current, Spelling.base? current⟩
    | some next =>
      if chain.contains next then .error (.aliasCycle (next :: chain).reverse)
      else t.follow fuel next (next :: chain)

def chain (t : AliasTable) (name : String) : Except Error AliasChain :=
  let start := Spelling.normalize name
  t.follow (t.size + 1) start [start]

def base (t : AliasTable) (name : String) : Except Error (Option BaseType) :=
  (t.chain name).map AliasChain.base

/-- A bound of a base type narrowed by an alias's own, which has to be a number then. -/
def narrowed (pick : Json → Json → Except Error Json) (base : Option Int) (own : Json) :
    Except Error Json :=
  Domain.tighter pick (.ofOption .int base) own

/-- The base type that a chain from a name leads to; a chain that does not end leads to none. -/
def baseOf? (t : AliasTable) (name : Json) : Except Error (Option BaseType) := do
  match t.chain (← name.spelling) with
  | .ok c => return c.base
  | .error _ => return none

/-- The description of an alias: size and range of the base type its chain leads to, narrowed by the
alias's own bounds. -/
def derive (t : AliasTable) (name : Json) (e : AliasEntry) : Except Error AliasMapping := do
  let base ← t.baseOf? name
  let bounds ← match base with
    | some b => b.bounds t.abi
    | none => pure none
  return {
    userType := name
    baseType := e.target
    lower := ← narrowed Json.larger (bounds.map Prod.fst) e.lower
    upper := ← narrowed Json.smaller (bounds.map Prod.snd) e.upper
    size := .ofOption (·.size t.abi) base
    source := e.source }

def describe? (t : AliasTable) (name : Json) : Except Error (Option AliasMapping) :=
  match t.entries.get? name with
  | some e => return some (← t.derive name e)
  | none => .ok none

def mapping (t : AliasTable) (name : Json) : Except Error (Option AliasMapping × AliasTable) :=
  match t.memo.get? name with
  | some m => .ok (some m, t)
  | none => do
    match ← t.describe? name with
    | some m => return (some m, { t with memo := t.memo.put name m })
    | none => return (none, t)

def mappings (t : AliasTable) : Except Error (List (Json × AliasMapping) × AliasTable) :=
  t.entries.keys.foldlM (fun (acc : List (Json × AliasMapping) × AliasTable) name => do
    let (m, t) ← acc.2.mapping name
    return (acc.1 ++ (m.map fun m => (name, m)).toList, t)) ([], t)

/-- The domain that a type gives a variable: the bounds of an alias, or the range of a base type. -/
def domainFor (t : AliasTable) (type : String) (x : Json) :
    Except Error (Option Domain × AliasTable) := do
  match ← t.mapping (.str (Spelling.normalize type)) with
  | (some m, t) =>
    if m.lower.isNull && m.upper.isNull then return (none, t)
    return (some (.range x m.lower m.upper (.str "typedef")), t)
  | (none, t) =>
    let bounds ← match Spelling.base? type with
      | some b => b.bounds t.abi
      | none => pure none
    return (bounds.map fun b => Domain.range x (.int b.1) (.int b.2) (.str "type"), t)

def text (t : AliasTable) : String :=
  s!"TypedefRegistry({t.size} aliases, abi=" ++ t.abi.name.plain ++ ")"

end AliasTable

/-! ## Storage

An alias table is stored as a JSON object with a version and three lists of records, by the source
of the aliases.  When lists repeat a name, the first record counts. -/

namespace AliasMapping

def ofJson (j : Json) : Decoder AliasMapping := do
  return {
    userType := .str (← j.need "user_type").plain
    baseType := (← j.need "base_type").plain
    lower := ← j.fieldOr "min_value" .null
    upper := ← j.fieldOr "max_value" .null
    size := ← j.fieldOr "size" .null
    source := .str (← j.fieldOr "source" (.str "Predefined")).plain }

end AliasMapping

namespace AliasTable

/-- The lists of a stored table, with the source of a record that names none. -/
def storedGroups : List (String × String) :=
  [("predefined", "Predefined"), ("detected", "Detected"), ("learned", "Learned")]

def groupOf : Json → Except Error String
  | .str source =>
    if source = "Predefined" then .ok "predefined"
    else if "Detected".toList.isPrefixOf source.toList then .ok "detected"
    else .ok "learned"
  | _ => .error .notRecord

def recordJson (name : Json) (e : AliasEntry) : Json := .obj [
  ("user_type", name), ("base_type", .str e.target), ("min_value", e.lower),
  ("max_value", e.upper), ("source", e.source)]

def toJson (t : AliasTable) : Except Error Json := do
  let records ← t.entries.entries.mapM fun e => do
    return (← groupOf e.2.source, recordJson e.1 e.2)
  let group (g : String) : Json := .arr ((records.filter fun r => r.1 = g).map Prod.snd)
  return .obj (("version", .str "1.0") :: storedGroups.map fun g => (g.1, group g.1))

def loadRecord (source : String) (t : AliasTable) (raw : Json) : Decoder AliasTable := do
  let user ← (← raw.need "user_type").asKey
  if t.contains user then return t
  let base ← (← raw.need "base_type").spelling
  return t.put user ⟨Spelling.normalize base, ← raw.fieldOr "source" (.str source),
    ← raw.fieldOr "min_value" .null, ← raw.fieldOr "max_value" .null⟩

def ofJson (abi : Target) (j : Json) : Decoder AliasTable :=
  storedGroups.foldlM (fun t g => do
    let records ← (← j.fieldOr g.1 .null).orElse (.arr []) |>.elements
    records.foldlM (loadRecord g.2) t) (.empty abi)

end AliasTable

end Branchwise
