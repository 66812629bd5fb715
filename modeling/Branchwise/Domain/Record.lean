import Branchwise.Domain.Basic

/-!
# Records of domains

A domain is read from a record of its data, or from a record that says how it is made, with the
arguments in order or by name.  It is shown as a record of its data with its kind, whether it is
empty, and its text.
-/

namespace Branchwise

namespace Domain

def toJson (d : Domain) : Except Error Json := do
  return .obj [("variable_name", d.variableName), ("min_value", d.lower), ("max_value", d.upper),
    ("allowed_values", .ofOption .arr d.allowed), ("exact_value", d.exact),
    ("expression", d.guard), ("source", d.source), ("kind", .str d.kind.name),
    ("is_empty", .bool (← d.isEmpty)), ("str", .str (← d.text))]

def withField (d : Domain) (field : String × Json) : Decoder Domain :=
  match field with
  | ("variable_name", x) => .ok { d with variableName := x }
  | ("min_value", v) => .ok { d with lower := v }
  | ("max_value", v) => .ok { d with upper := v }
  | ("allowed_values", .null) => .ok { d with allowed := none }
  | ("allowed_values", vs) => return { d with allowed := some (← vs.elements) }
  | ("exact_value", v) => .ok { d with exact := v }
  | ("expression", g) => .ok { d with guard := g }
  | ("source", s) => .ok { d with source := s }
  | _ => .error .mistyped

def withFields (d : Domain) (fields : List (String × Json)) : Decoder Domain :=
  fields.foldlM withField d

/-- The ways to make a domain: the names of their arguments, and the source of a domain for which
none is named. -/
def makers : List (String × List String × String) := [("range", ["lo", "hi"], "type"),
  ("at_least", ["lo"], "guard"), ("at_most", ["hi"], "guard"), ("enumeration", ["values"], "enum"),
  ("exact", ["value"], "user"), ("custom", ["expression"], "user")]

/-- The values of parameters from arguments in order and by name: no parameter may be given twice,
and no other name. -/
def bindArguments (parameters : List String) (args : List Json) (named : List (String × Json)) :
    Decoder (List (String × Json)) :=
  let free := parameters.drop args.length
  if args.length ≤ parameters.length && named.all fun a => free.contains a.1 then
    .ok (parameters.zip args ++ named)
  else .error .mistyped

def make (x : Json) (how : String) (args : List Json) (named : List (String × Json)) :
    Decoder Domain := do
  match makers.find? fun m => m.1 = how with
  | none => throw .notRecord
  | some (_, parameters, standard) =>
    let given := Json.obj (← bindArguments (parameters ++ ["source"]) args named)
    let source := (given.field? "source").getD (.str standard)
    match how, parameters.mapM given.field? with
    | "range", some [lo, hi] => return range x lo hi source
    | "at_least", some [lo] => return atLeast x lo source
    | "at_most", some [hi] => return atMost x hi source
    | "enumeration", some [values] => return enumeration x (← values.elements) source
    | "exact", some [value] => return exactly x value source
    | "custom", some [guard] => return custom x guard source
    | _, _ => throw .mistyped

def fieldsOf : Option Json → List (String × Json)
  | some (.obj fields) => fields
  | _ => []

def ofJson (j : Json) : Decoder Domain := do
  let x ← j.need "name"
  match j.field? "make" with
  | none => (all x (.str "type")).withFields ((fieldsOf (some j)).filter fun f => f.1 ≠ "name")
  | some how =>
    let args ← ((j.field? "args").getD (.arr [])).elements
    make x (← how.asText) args (fieldsOf (j.field? "kw"))

end Domain

end Branchwise
