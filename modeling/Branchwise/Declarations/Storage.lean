import Branchwise.Body.Storage
import Branchwise.Declarations.Basic

/-!
# Stored declarations

Reads entities from JSON records.  What a record does not say has a default; the file of a record
without one is that of its unit.  What it says is kept as it stands, except that the types of
parameters and variables have to be spellings.
-/

namespace Branchwise

namespace Json

def itemsOf (j : Json) (key : String) : Decoder (List Json) := do
  (← j.fieldOr key (.arr [])).elements

end Json

def Parameter.ofJson (position : Nat) (j : Json) : Decoder Parameter := do
  let type ← j.fieldOr "type" (.str "int")
  let spelling ← type.spelling
  return {
    name := ← j.fieldOr "name" (.str s!"arg{position}")
    type := type
    position := position
    isConst := ← j.fieldOr "is_const" (.bool (Spelling.mentions "const" spelling))
    isVolatile := ← j.fieldOr "is_volatile" (.bool (Spelling.mentions "volatile" spelling)) }

def VariableDecl.ofJson (owner file : Json) (j : Json) : Decoder VariableDecl := do
  let type ← j.fieldOr "type" (.str "int")
  let name ← j.need "name"
  let spelling ← type.spelling
  return {
    name := name
    type := type
    file := ← j.fieldOr "file" file
    line := ← j.fieldOr "line" (.int 0)
    owner := ← j.fieldOr "scope" owner
    isStatic := ← j.fieldOr "is_static" (.bool false)
    isExtern := ← j.fieldOr "is_extern" (.bool false)
    isConst := ← j.fieldOr "is_const" (.bool (Spelling.mentions "const" spelling))
    isVolatile := ← j.fieldOr "is_volatile" (.bool (Spelling.mentions "volatile" spelling))
    initializer := ← j.fieldOr "initializer" .null }

def FunctionDecl.ofJson (file : Json) (j : Json) : Decoder FunctionDecl := do
  let name ← j.need "name"
  let file ← j.fieldOr "file" file
  let isBare := (j.field? "body").isNone && ((j.field? "called_functions").getD .null).isVoid
  return {
    name := name
    returnType := ← j.fieldOr "return_type" (.str "int")
    parameters := ← (← j.itemsOf "parameters").zipIdx.mapM fun (p, i) => Parameter.ofJson i p
    file := file
    line := ← j.fieldOr "line" (.int 0)
    endLine := ← j.fieldOr "end_line" (.int 0)
    isStatic := ← j.fieldOr "is_static" (.bool false)
    isInline := ← j.fieldOr "is_inline" (.bool false)
    isExtern := ← j.fieldOr "is_extern" (.bool false)
    isVariadic := ← j.fieldOr "is_variadic" (.bool false)
    isDeclarationOnly := ← j.fieldOr "is_declaration_only" (.bool isBare)
    calls := ← j.itemsOf "called_functions"
    locals := ← (← j.itemsOf "local_variables").mapM (VariableDecl.ofJson name file)
    returnSites := ← j.itemsOf "return_sites"
    cyclomatic := .int (max 1 (← (← j.fieldOr "cyclomatic_complexity" (.int 1)).toInt))
    isRecursive := false }

def FunctionDecl.withComplexity (name complexity : Json) (locals : List VariableDecl) :
    Except Error FunctionDecl := do
  let cyclomatic ← complexity.asScalar
  if cyclomatic.lt (.int 1) then throw (.model (.complexity name cyclomatic))
  return { FunctionDecl.named name with cyclomatic := cyclomatic, locals := locals }

def MemberDecl.ofJson (j : Json) : Decoder MemberDecl := do
  return {
    name := ← j.need "name"
    type := ← j.fieldOr "type" (.str "int")
    arrayLength := ← j.fieldOr "array_length" .null
    bitWidth := ← j.fieldOr "bit_width" .null
    size := ← j.fieldOr "size" .null
    alignment := ← j.fieldOr "alignment" .null
    line := ← j.fieldOr "line" (.int 0) }

def AggregateDecl.ofJson (isUnion : Bool) (file : Json) (j : Json) : Decoder AggregateDecl := do
  return {
    isUnion := isUnion
    name := ← j.need "name"
    members := ← (← j.itemsOf "members").mapM MemberDecl.ofJson
    file := ← j.fieldOr "file" file
    line := ← j.fieldOr "line" (.int 0)
    isPacked := ← j.fieldOr "is_packed" (.bool false) }

def Enumerator.ofJson : Json → Decoder Enumerator
  | .str s => .ok ⟨.str s, .null⟩
  | j => do return ⟨← j.need "name", ← j.fieldOr "value" .null⟩

def EnumDecl.ofJson (file : Json) (j : Json) : Decoder EnumDecl := do
  let values ← (← j.itemsOf "values").mapM Enumerator.ofJson
  return {
    name := ← j.need "name"
    values := values
    file := ← j.fieldOr "file" file
    line := ← j.fieldOr "line" (.int 0)
    underlyingType := ← j.fieldOr "underlying_type" (.str "int") }

def AliasDecl.ofJson (file : Json) (j : Json) : Decoder AliasDecl := do
  return {
    name := ← j.fieldOr "alias" (← j.fieldOr "name" .null)
    type := ← j.fieldOr "original_type" (← j.fieldOr "type" (.str "int"))
    file := ← j.fieldOr "file" file
    line := ← j.fieldOr "line" (.int 0) }

def MacroDecl.ofJson (file : Json) (j : Json) : Decoder MacroDecl := do
  return {
    name := ← j.need "name"
    value := (← j.fieldOr "value" (.str "")).plain
    parameters := ← j.fieldOr "parameters" .null
    file := ← j.fieldOr "file" file
    line := ← j.fieldOr "line" (.int 0)
    dependencies := ← j.itemsOf "dependencies"
    isEnabled := ← j.fieldOr "is_enabled" (.bool true)
    usageCount := ← j.fieldOr "usage_count" (.int 0) }

def ConditionalDecl.ofJson (file : Json) (j : Json) : Decoder ConditionalDecl := do
  return {
    directive := ← j.fieldOr "directive" (.str "if")
    condition := ← j.fieldOr "condition" (.str "")
    file := ← j.fieldOr "file" file
    line := ← j.fieldOr "line" (.int 0)
    endLine := ← j.fieldOr "end_line" (.int 0)
    dependencies := ← j.itemsOf "dependencies"
    parentLine := ← j.fieldOr "parent_line" .null
    isSatisfied := ← j.fieldOr "is_condition_satisfied" .null }

def IncludeDecl.ofJson (file : Json) (j : Json) : Decoder IncludeDecl := do
  return {
    path := ← j.need "path"
    file := ← j.fieldOr "file" file
    line := ← j.fieldOr "line" (.int 0)
    isSystem := ← j.fieldOr "is_system" (.bool false) }

def Entity.ofJson (kind : EntityKind) (file : Json) (j : Json) : Decoder Entity :=
  match kind with
  | .function => (FunctionDecl.ofJson file j).map .function
  | .variable => (VariableDecl.ofJson .null file j).map .variable
  | .struct => (AggregateDecl.ofJson false file j).map .aggregate
  | .union => (AggregateDecl.ofJson true file j).map .aggregate
  | .enum => (EnumDecl.ofJson file j).map .enum
  | .typedef => (AliasDecl.ofJson file j).map .typedef
  | .macroDef => (MacroDecl.ofJson file j).map .macroDef
  | .conditional => (ConditionalDecl.ofJson file j).map .conditional
  | .include => (IncludeDecl.ofJson file j).map .include

/-! ## Units

A unit is stored as an object with a list of records for each kind of entity.  A function may come
with its body, from which its calls, local variables, return sites and complexity are taken. -/

structure Document where
  path : String
  declarations : Declarations
  bodies : Table Json Tree

namespace Document

def localOf (f : FunctionDecl) (l : Label) : Option VariableDecl :=
  if l.name.isVoid then none
  else some { VariableDecl.named l.name (l.type.orElse (.str "int")) with
    file := l.file.orElse f.file
    line := l.line
    owner := f.name
    initializer := l.text.orElse .null }

def annotate (f : FunctionDecl) (body : Tree) : Except Error FunctionDecl := do
  return { f with
    calls := ← if f.calls.isEmpty then body.calledNames else pure f.calls
    locals := if f.locals.isEmpty then
        (body.collect .declaration).filterMap fun n => localOf f n.label
      else f.locals
    returnSites := if f.returnSites.isEmpty then
        (body.collect .return).map fun n => n.label.line
      else f.returnSites
    cyclomatic := .int (1 + body.decisionCount)
    isDeclarationOnly := .bool false }

def groups : List (String × EntityKind) := [("typedefs", .typedef), ("enums", .enum),
  ("structs", .struct), ("unions", .union), ("macros", .macroDef), ("conditionals", .conditional),
  ("includes", .include), ("variables", .variable)]

def readGroup (file : Json) (j : Json) (d : Declarations) (group : String × EntityKind) :
    Decoder Declarations := do
  (← j.itemsOf group.1).foldlM (fun d raw => do
    return (← d.insert (← Entity.ofJson group.2 file raw)).2.2) d

def readFunction (file : Json) (acc : Declarations × Table Json Tree) (raw : Json) :
    Decoder (Declarations × Table Json Tree) := do
  let f ← FunctionDecl.ofJson file raw
  match raw.field? "body" with
  | none => return ((← acc.1.insert (.function f)).2.2, acc.2)
  | some b =>
    let body ← Tree.ofJson f.file b
    let f ← annotate f body
    return ((← acc.1.insert (.function f)).2.2, acc.2.put f.name body)

/-- Reads a stored unit.  The file of a unit that names none is its path, and the path of one that
has none is its file. -/
def ofJson (path : Json) (t : Target) (j : Json) : Decoder Document := do
  let file ← j.fieldOr "file" path
  let d ← groups.foldlM (readGroup file j) (.empty t)
  let (d, bodies) ← (← j.itemsOf "functions").foldlM (readFunction file) (d, .empty)
  return ⟨(path.orElse file).plain, d, bodies⟩

end Document

end Branchwise
