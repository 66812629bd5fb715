import Branchwise.Declarations.Issue

/-!
# Records of declarations

Entities, layouts, resolved types and issues in the form in which they are shown as JSON.
-/

namespace Branchwise

def Parameter.fields (p : Parameter) : List (String × Json) := [("name", p.name),
  ("type_name", p.type), ("position", .nat p.position), ("is_const", p.isConst),
  ("is_volatile", p.isVolatile)]

def VariableDecl.fields (v : VariableDecl) : List (String × Json) := [
  ("name", v.name), ("type_name", v.type), ("file", v.file), ("line", v.line), ("scope", v.owner),
  ("is_static", v.isStatic), ("is_extern", v.isExtern), ("is_const", v.isConst),
  ("is_volatile", v.isVolatile), ("initializer", v.initializer)]

def MemberDecl.fields (m : MemberDecl) : List (String × Json) := [("name", m.name),
  ("type_name", m.type), ("array_length", m.arrayLength), ("bit_width", m.bitWidth),
  ("size", m.size), ("alignment", m.alignment), ("line", m.line)]

def FunctionDecl.fields (f : FunctionDecl) : List (String × Json) := [
  ("return_type", f.returnType),
  ("parameters", .arr (f.parameters.map fun p => .obj (p.fields ++ [
    ("is_pointer", .bool p.isPointer), ("pointer_depth", .nat p.pointerDepth),
    ("is_array", .bool p.isArray)]))),
  ("end_line", f.endLine), ("is_static", f.isStatic), ("is_inline", f.isInline),
  ("is_extern", f.isExtern), ("is_variadic", f.isVariadic),
  ("is_declaration_only", f.isDeclarationOnly), ("called_functions", .arr f.calls),
  ("local_variables", .arr (f.locals.map fun v => .obj v.fields)),
  ("return_sites", .arr f.returnSites), ("cyclomatic_complexity", .ofScalar f.cyclomatic),
  ("is_recursive", .bool f.isRecursive), ("signature", .str f.signature),
  ("linkage", .str f.linkage), ("has_body", .bool f.hasBody)]

/-- An entity with everything that is known of it; whether an aggregate is laid out is known to its
declarations. -/
def Entity.toJson (d : Declarations) (e : Entity) : Except Error Json := do
  let i := e.identity
  let common := [("entity", Json.str i.kind.name), ("name", i.name), ("file", i.file),
    ("line", i.line)]
  let location := ("location", Json.str (i.file.plain ++ ":" ++ i.line.plain))
  let own ← match e with
  | .function f => pure (location :: f.fields)
  | .variable v => pure (location :: v.fields.filter fun f => !common.any fun c => c.1 = f.1)
  | .aggregate a => do
    let members ← a.members.mapM fun m => do
      return Json.obj (m.fields ++ [("is_pointer", .bool (← m.isPointer)),
        ("is_bitfield", .bool m.isBitField)])
    pure [location, ("is_packed", a.isPacked),
      ("laid_out", .bool (d.layouts.contains a.identity)), ("members", .arr members)]
  | .enum e => pure [("underlying_type", e.underlyingType), ("values", .arr (e.values.map fun v =>
      .obj [("name", v.name), ("value", v.value)]))]
  | .typedef a => do
    pure [("alias_name", a.name), ("original_type", a.type),
      ("is_function_pointer", .bool (← a.isFunctionPointer)), ("is_pointer", .bool (← a.isPointer)),
      ("is_array", .bool (← a.isArray))]
  | .macroDef m => pure [("value", .str m.value), ("parameters", m.parameters),
      ("dependencies", .arr m.dependencies), ("is_enabled", m.isEnabled),
      ("usage_count", m.usageCount), ("is_function_like", .bool m.isFunctionLike),
      ("numeric", .ofOption .ofScalar m.numeric?)]
  | .conditional c => pure [("directive", c.directive), ("condition", c.condition),
      ("end_line", c.endLine), ("dependencies", .arr c.dependencies),
      ("parent_line", c.parentLine), ("is_condition_satisfied", c.isSatisfied)]
  | .include i => pure [("path", i.path), ("is_system", i.isSystem)]
  return .obj (common ++ own)

def Issue.toJson (i : Issue) : Json := .obj [
  ("kind", .str i.kind.name), ("severity", .str i.severity), ("message", .str i.message),
  ("entity", i.entity), ("file", i.file), ("line", i.line), ("str", .str i.text)]

def MemberLayout.toJson (m : MemberLayout) : Json := .obj [("name", m.name),
  ("offset", .ofScalar m.offset), ("size", .ofScalar m.size),
  ("alignment", .ofScalar m.alignment), ("bit_offset", .ofOption .ofScalar m.bitOffset),
  ("bit_width", m.bitWidth)]

def Layout.toJson (l : Layout) : Except Error Json := do
  let _ ← l.members.mapM fun m => m.name.asKey
  return .obj [("size", .ofScalar l.size), ("alignment", .ofScalar l.alignment),
    ("members", .arr (l.members.map MemberLayout.toJson)), ("padding", .ofScalar l.padding),
    ("offsets", .pairs .ofScalar l.offsets)]

def ResolvedType.toJson (r : ResolvedType) : Json := .obj [("spelling", .str r.spelling),
  ("chain", .strs r.chain), ("core", .str r.core), ("pointer_depth", .nat r.pointerDepth),
  ("array_dims", .nats r.dims), ("base", .ofOption .str (r.base.map BaseType.spelling)),
  ("aggregate", .ofOption .str (r.aggregate.map fun a => a.kind.name ++ " " ++ a.name.plain)),
  ("enum", .ofOption .str (r.enum.map fun e => "enum " ++ e.name.plain)),
  ("is_pointer", .bool r.isPointer),
  ("is_resolved", .bool r.isResolved), ("element_count", .nat r.elementCount)]

end Branchwise
