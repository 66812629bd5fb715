import Branchwise.Declarations.Entity
import Branchwise.Flow.Build

/-!
# Analysis of a function

The flow graph of a function with its branches, its paths up to a limit, its complexity and the
directions of its parameters.
-/

namespace Branchwise

/-! ## Complexity -/

structure Complexity where
  cyclomatic : Nat
  decisions : Nat
  nesting : Nat
  statements : Nat
  lines : Scalar
  branches : Nat
  maintainability : Binary64
deriving DecidableEq, Repr, Inhabited

/-- The nearest number with two decimals; a half goes to the even neighbour. -/
def Binary64.toHundredths (x : Binary64) : Binary64 :=
  match x.toRat? with
  | some r => ofRat (roundHalfEven (r * 100) / 100) x.isNegative
  | none => x

namespace Tree

def nests (k : NodeKind) : Bool := (k.isDecision || k.isLoop || k = .switch) && k ≠ .case

mutual

def nesting : Tree → Nat
  | node l ts => nestingAll ts + if nests l.kind then 1 else 0

def nestingAll : List Tree → Nat
  | [] => 0
  | t :: ts => Nat.max t.nesting (nestingAll ts)

end

def statementCount (t : Tree) : Nat :=
  (t.walk.filter fun n => n.label.isStatement && n.kind ≠ .compound).length

def namedLines (t : Tree) : List Json :=
  (t.walk.map fun n => n.label.line).filter fun line => !line.isVoid

end Tree

namespace Complexity

def maintainabilityIndex (cyclomatic : Nat) (lines : Scalar) : Binary64 :=
  let lines := match (lines.max (.int 1)).toReal? with
    | some x => x.toFloat
    | none => 1.0 / 0.0
  let raw := 171.0 - 0.23 * Float.ofNat cyclomatic - 16.2 * Float.log lines
  let index := raw * 100.0 / 171.0
  (Binary64.ofBits (if 0.0 < index then index else 0.0).toBits.toNat).toHundredths

def lineSpan (first last : Scalar) : Except Error Scalar :=
  match last.sub? first with
  | some n => .ok n.succ
  | none => .error .overflow

/-- The number of lines of a function: those it says it covers, or else those from the first to the
last that its body names. -/
def lineCount (f : FunctionDecl) (body : Tree) : Except Error Scalar := do
  if !f.endLine.isVoid && !f.line.isVoid then
    return ← lineSpan (← f.line.asScalar) (← f.endLine.asScalar)
  match ← body.namedLines.mapM Json.asScalar with
  | [] => return .int 1
  | line :: lines => lineSpan (lines.foldl Scalar.min line) (lines.foldl Scalar.max line)

def measure (f : FunctionDecl) (body : Tree) (branches : Nat) : Except Error Complexity := do
  let decisions := body.decisionCount
  let lines ← lineCount f body
  return {
    cyclomatic := decisions + 1
    decisions := decisions
    nesting := body.nesting
    statements := body.statementCount
    lines := lines
    branches := branches
    maintainability := maintainabilityIndex (decisions + 1) lines }

end Complexity

/-! ## Directions of parameters

A value or a pointer to constant data goes into a function.  A pointer to other data goes both ways,
unless the first statement that mentions it stores through it without reading it, and no condition
mentions it: then it only carries data out. -/

inductive Direction where
  | input
  | output
  | inOut
deriving DecidableEq, Repr, Inhabited

def Direction.name : Direction → String
  | input => "input"
  | output => "output"
  | inOut => "in-out"

/-- A place in a text: the character before it, and what follows. -/
structure Place where
  before : Option Char
  rest : List Char
deriving DecidableEq, Repr, Inhabited

namespace Place

def atBoundary (p : Place) : Bool := p.before.any Text.isWord != p.rest.head?.any Text.isWord

def after? (p : Place) : List Char → Option Place
  | [] => some p
  | c :: cs =>
    match p.rest with
    | d :: rest => if c = d then after? ⟨some d, rest⟩ cs else none
    | [] => none

def afterRun (keep : Char → Bool) (before : Option Char) : List Char → List Place
  | [] => [⟨before, []⟩]
  | c :: cs => (if keep c then afterRun keep (some c) cs else []) ++ [⟨before, c :: cs⟩]

def afterBlanks (p : Place) : List Place := afterRun Text.isBlank p.before p.rest

def startsWord (name : List Char) (p : Place) : Bool :=
  p.atBoundary && (p.after? name).any atBoundary

/-- The places after an object reached through a pointer: what it points to, an element, or a
member. -/
def afterTarget (name : List Char) (p : Place) : List Place :=
  let pointee := (p.after? ['*']).toList.flatMap fun q =>
    (q.afterBlanks.filterMap fun q => q.after? name).filter atBoundary
  let named := if p.atBoundary then (p.after? name).toList.flatMap afterBlanks else []
  let element := (named.filterMap fun q => q.after? ['[']).flatMap fun q =>
    (afterRun (· ≠ ']') q.before q.rest).filterMap fun q => q.after? [']']
  let arrows := (named.filterMap fun q => q.after? ['-', '>']).flatMap afterBlanks
  let member := arrows.flatMap fun q =>
    (afterRun Text.isWord q.before q.rest).filter fun r => r.rest.length < q.rest.length
  pointee ++ element ++ member

def afterStore? (name : List Char) (p : Place) : Option Place :=
  (((p.afterTarget name).flatMap afterBlanks).filterMap fun q => q.after? ['=']).find? fun q =>
    q.rest.head? ≠ some '='

end Place

namespace Direction

def mentions (name : List Char) (before : Option Char) : List Char → Bool
  | [] => Place.startsWord name ⟨before, []⟩
  | c :: cs => Place.startsWord name ⟨before, c :: cs⟩ || mentions name (some c) cs

/-- The text without its first store through a pointer, if it has one; `passed` is what stands
before, the last character first. -/
def withoutStore? (name passed : List Char) : List Char → Option (List Char)
  | [] => none
  | c :: cs =>
    match Place.afterStore? name ⟨passed.head?, c :: cs⟩ with
    | some q => some (passed.reverse ++ q.rest)
    | none => withoutStore? name (c :: passed) cs

/-- Whether the first text that mentions a pointer stores through it and does not read it.  The
texts up to that one have to be texts. -/
def writtenFirst (name : List Char) : List Json → Except Error Bool
  | [] => .ok false
  | j :: texts => do
    let text := (← j.asText).toList
    if mentions name none text then
      match withoutStore? name [] text with
      | some rest => return !mentions name none rest
      | none => return false
    else writtenFirst name texts

def statementTexts (body : Tree) : List Json :=
  ((body.walk.filter fun n => n.label.isStatement && n.kind ≠ .compound).map fun n =>
    n.label.text).filter fun text => !text.isVoid

def conditionText (body : Tree) : Except Error String :=
  Json.joined " " (body.walk.map fun n => n.label.condition.orElse (.str ""))

/-- What the direction of a pointer is told from: the conditions of a body and the texts of its
statements. -/
structure Mentions where
  conditions : List Char
  texts : List Json

def Mentions.ofBody (body : Tree) : Except Error Mentions :=
  return ⟨(← conditionText body).toList, statementTexts body⟩

def ofParameter (body : Option Mentions) (p : Parameter) : Except Error Direction := do
  if !(p.isPointer || p.isArray) || !p.isConst.isVoid then return .input
  match body with
  | some body =>
    let name := (← p.name.asText).toList
    if mentions name none body.conditions then return .inOut
    return if ← writtenFirst name body.texts then .output else .inOut
  | none => return .inOut

def ofFunction (f : FunctionDecl) (body : Option Tree) : Except Error (Table Json Direction) := do
  let body ← body.mapM Mentions.ofBody
  let directions ← f.parameters.mapM fun p => do
    let direction ← ofParameter body p
    return (← p.name.asKey, direction)
  return .ofList directions

end Direction

/-! ## Paths

A path is a way of control from the entry of a function to its end, known by the branches it takes.
The search goes depth first and takes the outcomes of a decision in order.  It never comes twice to
the same node: from a loop it has been in, it goes on at the exit of the loop. -/

structure FlowPath where
  id : Nat
  branches : List Nat
  condition : String
  lines : List Json
deriving Repr, Inhabited

structure PathGrid where
  nodes : Array FlowNode
  next : Array (List Nat)
  conditions : Array String
deriving Repr, Inhabited

structure PathSearch where
  found : List FlowPath
  count : Nat
deriving Repr, Inhabited

namespace PathSearch

def start : PathSearch := ⟨[], 0⟩

def isFull (s : PathSearch) : Option Nat → Bool
  | some limit => limit ≤ s.count
  | none => false

def record (s : PathSearch) (conditions : Array String) (branches : List Nat) (lines : List Json) :
    PathSearch :=
  if s.found.any fun p => p.branches = branches then s
  else
    let condition := Guard.conjoin (branches.filterMap fun b => conditions[b]?)
    ⟨⟨s.count, branches, condition, lines⟩ :: s.found, s.count + 1⟩

end PathSearch

namespace PathGrid

def ofGraph (g : FlowGraph) (branches : List Branch) : PathGrid where
  nodes := g.nodes.toArray
  next := (g.nodes.map fun n => g.successors n.id).toArray
  conditions := (branches.map Branch.condition).toArray

/-- Where a search goes on after a step to a node: at the node itself, or at the exit of its loop if
the node is on the path already. -/
def landing? (grid : PathGrid) (onPath : NatSet) (id : Nat) : Option Nat :=
  if !onPath.contains id then some id
  else ((grid.nodes[id]?).bind FlowNode.loopExit).filter fun exit => !onPath.contains exit

def branchesWith (branches : List Nat) (n : FlowNode) : List Nat :=
  match n.branch with
  | some b => branches ++ [b]
  | none => branches

def linesWith (lines : List Json) (n : FlowNode) : List Json :=
  if n.isSynthetic || n.line.isVoid then lines else lines ++ [n.line]

/-- Adds the paths that go on from a node.  A step that leads nowhere new ends a path. -/
def explore (grid : PathGrid) (limit : Option Nat) :
    Nat → Nat → List Nat → List Json → NatSet → PathSearch → PathSearch
  | 0, _, _, _, _, s => s
  | fuel + 1, id, branches, lines, onPath, s =>
    if s.isFull limit then s
    else
      let next := (grid.next[id]?).getD []
      if id = FlowGraph.exit || next.isEmpty then s.record grid.conditions branches lines
      else
        let ends := next.any fun n => (grid.landing? onPath n).isNone
        let s := if ends then s.record grid.conditions branches lines else s
        (next.filterMap (grid.landing? onPath)).foldl (fun s n =>
          match grid.nodes[n]? with
          | some node =>
            grid.explore limit fuel n (branchesWith branches node) (linesWith lines node)
              (onPath.insert n) s
          | none => s) s

end PathGrid

namespace FlowGraph

def paths (g : FlowGraph) (branches : List Branch) (limit : Option Nat) : List FlowPath :=
  let grid := PathGrid.ofGraph g branches
  let s := grid.explore limit (g.nodes.length + 1) entry [] [] (NatSet.empty.insert entry) .start
  s.found.reverse

end FlowGraph

/-! ## Analyses -/

structure BranchAnalysis where
  function : Json
  graph : FlowGraph
  branches : List Branch
  paths : List FlowPath
  complexity : Complexity
  directions : Table Json Direction
deriving Repr, Inhabited

namespace BranchAnalysis

def ofFunction (f : FunctionDecl) (body : Tree) (limit : Option Nat) :
    Except Error BranchAnalysis := do
  let d ← Draft.ofBody f.name body
  return {
    function := f.name
    graph := d.graph
    branches := d.branches
    paths := d.graph.paths d.branches limit
    complexity := ← Complexity.measure f body d.branches.length
    directions := ← Direction.ofFunction f (some body) }

def branch (a : BranchAnalysis) (id : Json) : Except Error Branch :=
  match a.branches.find? fun b => Json.nat b.id == id with
  | some b => .ok b
  | none => .error (.entityNotFound "branch" (.str (a.function.plain ++ "#" ++ id.plain)))

def pathsThrough (a : BranchAnalysis) (id : Json) : List FlowPath :=
  a.paths.filter fun p => p.branches.any fun b => Json.nat b == id

def reachableBranches (a : BranchAnalysis) : List Branch := a.branches.filter Branch.isReachable

/-- Chooses paths for the wanted branches in turn: for one that no chosen path takes, the first path
that takes it. -/
def choosePaths (a : BranchAnalysis) (chosen : List FlowPath) : List Json → List FlowPath
  | [] => chosen
  | id :: wanted =>
    if chosen.any fun p => p.branches.any fun b => Json.nat b == id then
      a.choosePaths chosen wanted
    else
      match (a.pathsThrough id).head? with
      | some p => a.choosePaths (chosen ++ [p]) wanted
      | none => a.choosePaths chosen wanted

def covering (a : BranchAnalysis) (wanted : List Json) : Except Error (List FlowPath) := do
  let wanted := (← wanted.mapM Json.asKey).eraseDups
  wanted.forM fun id => do
    let _ ← a.branch id
  return a.choosePaths [] wanted

def summary (a : BranchAnalysis) : String :=
  let head := a.function.plain ++ s!": cyclomatic {a.complexity.cyclomatic}, "
    ++ s!"{a.branches.length} branches, {a.paths.length} paths"
  Text.join "\n" (head :: a.branches.map fun b =>
    s!"  #{b.id} L" ++ b.decisionLine.plain ++ " " ++ b.kind.name ++ ": " ++ b.condition
      ++ if b.isReachable then "" else " (unreachable)")

end BranchAnalysis

end Branchwise
