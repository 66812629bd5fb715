import Branchwise.Cli.Arguments
import Branchwise.Session.Basic

/-!
# Running commands

A command reads its files from a folder and gives what it writes and its exit status: zero for
success, one if a unit has errors, two for unusable input.
-/

namespace Branchwise

/-! ## Stored files

The files that a command can read, by their paths from the place where it runs.  A path is followed
part by part; what it meets first decides why there is no file at its end. -/

namespace Cli

/-- The parts of a path that lead somewhere: no empty ones, and none that stay in place. -/
def pathParts (path : String) : List String :=
  (Text.splitOnChar '/' path).filter fun p => !p.isEmpty && p ≠ "."

def pathRoot (path : String) : String :=
  match (path.toList.takeWhile (· = '/')).length with
  | 0 => ""
  | 2 => "//"
  | _ => "/"

def tidyPath (path : String) : String :=
  let tidy := pathRoot path ++ Text.join "/" (pathParts path)
  if tidy.isEmpty then "." else tidy

def maxNameSize : Nat := 255

def maxPathSize : Nat := 4095

structure Folder where
  files : Table String Json
deriving Repr, Inhabited

namespace Folder

/-- The folder of some files; a later one replaces an earlier one of the same path. -/
def ofFiles (files : List (String × Json)) : Folder :=
  ⟨.ofList (files.map fun (path, j) => (tidyPath path, j))⟩

def isFolder (f : Folder) (path : String) : Bool :=
  f.files.keys.any fun file => (path ++ "/").toList.isPrefixOf file.toList

def follow (f : Folder) : List String → List String → Except FileFault Json
  | _, [] => .error .directory
  | here, name :: rest =>
    if name = ".." then
      if here.isEmpty then .error (if rest.all (· = "..") then .directory else .missing)
      else f.follow here.dropLast rest
    else if maxNameSize < name.utf8ByteSize then .error .longName
    else
      let here := here ++ [name]
      let path := Text.join "/" here
      match f.files.get? path with
      | some j => if rest.isEmpty then .ok j else .error .notDirectory
      | none => if f.isFolder path then f.follow here rest else .error .missing

def read (f : Folder) (path : String) : Except FileFault Json :=
  let tidy := tidyPath path
  let parts := pathParts path
  if path.toList.contains (Char.ofNat 0) then .error .nullByte
  else if maxPathSize < tidy.utf8ByteSize then .error .longName
  else
    match f.files.get? tidy with
    | some j => .ok j
    | none =>
      if (pathRoot path).isEmpty then f.follow [] parts
      else if parts.isEmpty then .error .directory
      else .error (if parts.any fun p => maxNameSize < p.utf8ByteSize then .longName else .missing)

end Folder

end Cli

/-! ## Output records -/

def Complexity.fields (c : Complexity) : List (String × Json) := [
  ("cyclomatic", .nat c.cyclomatic), ("decision_points", .nat c.decisions),
  ("nesting_depth", .nat c.nesting), ("statement_count", .nat c.statements),
  ("line_count", .ofScalar c.lines), ("branch_count", .nat c.branches),
  ("maintainability_index", .real c.maintainability)]

def Complexity.toJson (c : Complexity) : Json := .obj c.fields

def Branch.fields (b : Branch) : List (String × Json) := [
  ("branch_id", .nat b.id), ("function", b.function), ("kind", .str b.kind.name),
  ("line", b.line), ("condition", .str b.condition), ("decision_line", b.decisionLine),
  ("is_true_edge", .bool b.isTrueEdge), ("case_value", .ofOption .str b.caseValue),
  ("is_feasible", .bool b.isFeasible), ("is_covered", .bool b.isCovered),
  ("is_reachable", .bool b.isReachable)]

def Branch.toJson (b : Branch) : Json := .obj b.fields

def FlowPath.fields (p : FlowPath) : List (String × Json) := [
  ("path_id", .nat p.id), ("branch_ids", .nats p.branches), ("condition", .str p.condition)]

def FlowPath.toJson (p : FlowPath) : Json := .obj p.fields

def CallSite.toJson (e : CallSite) : Json := .obj [
  ("caller", e.caller), ("callee", e.callee), ("file", e.file), ("line", e.line)]

def CallGraph.fields (g : CallGraph) : List (String × Json) := [
  ("root", g.root.getD .null),
  ("nodes", .arr (g.nodes.values.map fun n => .obj [
    ("name", n.name), ("kind", .str n.kindName), ("depth", .ofOption .nat n.depth),
    ("is_recursive", .bool n.isRecursive), ("callees", .arr (g.callees n.name))])),
  ("edges", .arr (g.edges.map CallSite.toJson)),
  ("unresolved_calls", .arr (g.unresolved.map CallSite.toJson))]

def CallGraph.toJson (g : CallGraph) : Json := .obj g.fields

def Json.ofAssignment (a : List (Json × String)) : Json :=
  .obj (a.map fun (x, v) => (x.fieldName, .str v))

def TestCase.toJson (values : List (Json × String) → Json) (t : TestCase) : Json := .obj [
  ("function", t.function), ("branch_id", .nat t.branch), ("values", values t.values),
  ("covered_branch_count", .nat t.coveredCount), ("total_branch_count", .nat t.totalCount),
  ("path_id", .ofOption .nat t.path), ("covered_branch_ids", .nats t.covers)]

def SynthesisReport.fields (values : List (Json × String) → Json) (r : SynthesisReport) :
    List (String × Json) := [
  ("function", r.function), ("target_coverage", .ofScalar r.target),
  ("achieved_coverage", .real r.coverage), ("total_branches", .nat r.total),
  ("covered_branch_ids", .nats r.coveredSorted), ("infeasible_branch_ids", .nats r.infeasible),
  ("unknown_branch_ids", .nats r.unknown), ("attempted_branch_ids", .nats r.attempted),
  ("cancelled", .bool r.cancelled), ("budget_exhausted", .bool r.budgetExhausted),
  ("solver_calls", .nat r.solverCalls), ("test_cases", .arr (r.cases.map (·.toJson values)))]

/-! ## Commands -/

namespace Cli

structure Outcome where
  exit : Nat
  output : String
  /-- What is written for the user; nothing is known of it if the command line was not usable. -/
  errors : Option String
deriving DecidableEq, Repr, Inhabited

/-! ## Files -/

def needFile (folder : Folder) (path : String) : Except Error Json :=
  (folder.read path).mapError .file

def needUnit (folder : Folder) (path : String) : Except Error Json :=
  match folder.read path with
  | .ok j => .ok j
  | .error .longName => .error (.file .longName)
  | .error _ => .error (.sourceNotFound path)

def Invocation.open (i : Invocation) (folder : Folder) : Except Error Session := do
  let aliases ← match i.typedefs with
    | some path => AliasTable.ofJson .lp64 (← needFile folder path)
    | none => pure (.standard .lp64)
  let settings ← match i.config with
    | some path => Settings.ofJson (← needFile folder path)
    | none => pure .standard
  let unit ← needUnit folder i.input
  (Session.start (← Document.ofJson (.str (tidyPath i.input)) .lp64 unit) aliases settings).1

/-! ## Texts -/

def issueLine (i : Issue) : String :=
  let place :=
    if i.file.isVoid then ""
    else if i.line.isVoid then i.file.plain ++ ": "
    else i.file.plain ++ ":" ++ i.line.plain ++ ": "
  place ++ i.severity ++ ": " ++ i.message ++ " [" ++ i.kind.name ++ "]"

def percent (x : Binary64) : String :=
  match x.toRat?.bind fun r => (Binary64.ofRat (r * 100) false).toRat? with
  | some r => toString (Binary64.roundHalfEven r) ++ "%"
  | none => x.text ++ "%"

def natList (ns : List Nat) : String := "[" ++ Text.join ", " (ns.map toString) ++ "]"

def valueList (a : List (Json × String)) : String :=
  Text.join ", " (a.map fun (x, v) => x.plain ++ "=" ++ v)

def reportLines (r : SynthesisReport) : List String :=
  [r.function.plain ++ ": coverage " ++ percent r.coverage
    ++ s!" ({r.covered.length}/{r.total} branches)"]
  ++ r.cases.map (fun t => s!"  branch {t.branch}: " ++ valueList t.values)
  ++ (if r.infeasible.isEmpty then [] else ["  infeasible: " ++ natList r.infeasible])
  ++ (if r.unknown.isEmpty then [] else ["  unknown: " ++ natList r.unknown])

def lines (ls : List String) : String := String.join (ls.map (· ++ "\n"))

/-! ## Commands -/

def runValidate : Question (Nat × String) := do
  let issues ← Session.validate
  let errors := (issues.filter Issue.isError).length
  let warnings := issues.length - errors
  return (if errors = 0 then 0 else 1,
    lines (issues.map issueLine ++ [s!"{errors} error(s), {warnings} warning(s)"]))

def runComplexity (json : Bool) (functions : List String) : Question String := do
  let defined := (← get).declarations.definedFunctions.map FunctionDecl.name
  let names := (if functions.isEmpty then defined else functions.map .str).eraseDups
  let report ← names.mapM fun name => do return (name, (← Session.analysis name).complexity)
  if json then
    return lines [(Json.obj (report.map fun (name, c) => (name.fieldName, c.toJson))).pretty]
  else return lines (report.map fun (name, c) =>
    name.plain ++ ": " ++ Text.join ", " (c.fields.map fun (k, v) => k ++ "=" ++ v.plain))

def runCallgraph (json : Bool) (root depth : Json) (dot : Bool) : Question String := do
  let g ← if root.isVoid then Session.callGraph
    else do
      let _ ← (← get).function root
      Session.callGraphFrom root depth
  if dot then return lines [← g.dot root]
  else if json then return lines [g.toJson.pretty]
  else return lines [← g.summary]

def runBranches (json : Bool) (function : Json) (paths dot : Bool) : Question String := do
  let a ← Session.analysis function
  if dot then return lines [← a.graph.dot .null]
  else if json then
    return lines [(Json.obj [("function", a.function), ("complexity", a.complexity.toJson),
      ("branches", .arr (a.branches.map Branch.toJson)),
      ("paths", .arr (a.paths.map FlowPath.toJson)),
      ("parameters",
        .obj (a.directions.entries.map fun (x, d) => (x.fieldName, .str d.name)))]).pretty]
  else
    let listed := if paths then a.paths.map fun p => s!"  path {p.id}: " ++ p.condition else []
    return lines (a.summary :: listed)

def runSynthesize (json : Bool) (function coverage : Json) : Question String := do
  let r ← Session.synthesize function coverage false
  if json then return lines [(Json.obj (r.fields Json.ofAssignment)).pretty]
  else return lines (reportLines r)

def runSolve (json : Bool) (function guard : Json) : Question String := do
  let r ← Session.solve function guard
  if json then
    let values := (r.assignment.filter fun a => !a.isEmpty).map Json.ofAssignment
    return lines [(Json.obj [("status", .str r.status.name), ("values", values.getD .null),
      ("reason", .str r.reason)]).pretty]
  else
    match r.assignment with
    | some a => return lines ["sat: " ++ valueList a]
    | none => return lines [r.status.name ++ ": " ++ r.reason]

/-- Asks a session what a command wants to know; gives the exit status and the output. -/
def runCommand (json : Bool) : Command → Question (Nat × String)
  | .validate => runValidate
  | .complexity functions => do return (0, ← runComplexity json functions)
  | .callgraph root depth dot => do return (0, ← runCallgraph json root depth dot)
  | .branches function paths dot => do return (0, ← runBranches json function paths dot)
  | .synthesize function coverage => do return (0, ← runSynthesize json function coverage)
  | .solve function guard => do return (0, ← runSolve json function guard)

/-- Whether an error is reported to the user; any other ends the program. -/
def isReported : Error → Bool
  | .file fault => fault = .nullByte
  | .overflow | .missingField _ | .missingNode _ | .mistyped | .notRecord | .exhausted
  | .badName => false
  | _ => true

def Invocation.run (i : Invocation) (folder : Folder) : Except Error Outcome :=
  let answer := do
    let session ← i.open folder
    ((runCommand i.json i.command).run.run session).1
  match answer with
  | .ok (exit, output) => .ok ⟨exit, output, some ""⟩
  | .error e =>
    if isReported e then .ok ⟨2, "", some ("error: " ++ e.message ++ "\n")⟩ else .error e

def versionLine : String := "ctestsynth 0.1.0"

def usageLine : String :=
  "usage: ctestsynth [-h] [--version] [-v] <command> [options] <unit.json> ..."

def run (words : List String) (folder : Folder) : Except Error Outcome :=
  match parse words with
  | .ok i => i.run folder
  | .error .usage => .ok ⟨2, "", none⟩
  | .error .version => .ok ⟨0, lines [versionLine], none⟩
  | .error .help => .ok ⟨0, lines [usageLine], none⟩

end Cli

end Branchwise
