import Branchwise.Flow.Graph
import Branchwise.Guard.Parser

/-!
# Building flow graphs

A statement is added after the node where control is and gives the node where control goes on;
control that does not come out of a statement is nowhere.  Jumps out of loops and switches go to
the targets that the surrounding statements set.
-/

namespace Branchwise

/-! ## Drafts

A draft is a flow graph under construction, with the table of its branches, the labels met so far
and the jumps to labels that are still open.  Its operations add nodes, edges, branches and arms,
and never take anything away. -/

structure Branch where
  id : Nat
  function : Json
  kind : NodeKind
  line : Json
  condition : String
  decisionLine : Json
  isTrueEdge : Bool
  caseValue : Option String
  isFeasible : Bool
  isCovered : Bool
  isReachable : Bool
  decisionNode : Nat
  armNode : Option Nat
deriving Repr, Inhabited

def Branch.isDefault (b : Branch) : Bool := b.kind = .default

structure Draft where
  graph : FlowGraph
  branches : List Branch
  labels : Table Json Nat
  gotos : List (Nat × Json)
deriving Repr, Inhabited

abbrev Drawing := StateM Draft

namespace Draft

def empty (function : Json) : Draft := ⟨.empty function, [], .empty, []⟩

def addNode (kind : FlowNodeKind) (source : Option NodeKind) (line text : Json)
    (branch loopExit : Option Nat) : Drawing Nat := fun d =>
  let id := d.graph.nodes.length
  let node : FlowNode := ⟨id, kind, source, line, text, branch, loopExit⟩
  (id, { d with graph.nodes := d.graph.nodes ++ [node] })

def addPoint (kind : FlowNodeKind) (line : Json) : Drawing Nat :=
  addNode kind none line (.str "") none none

def addStatement (kind : FlowNodeKind) (l : Label) (text : Json) : Drawing Nat :=
  addNode kind (some l.kind) l.line text none none

def addEdge (src dst : Nat) (kind : FlowEdgeKind) (label : Option String) : Drawing Unit := fun d =>
  ((), { d with graph.edges := d.graph.edges ++ [⟨src, dst, kind, label⟩] })

def link (src : Option Nat) (dst : Nat) (kind : FlowEdgeKind) : Drawing Unit :=
  match src with
  | some s => addEdge s dst kind none
  | none => pure ()

def ifEntered (id : Nat) : Drawing (Option Nat) := fun d =>
  (if (d.graph.inEdges id).isEmpty then none else some id, d)

structure BranchSpec where
  kind : NodeKind
  line : Json
  condition : String
  decisionLine : Json
  isTrueEdge : Bool
  caseValue : Option String

def addBranch (decision : Nat) (o : BranchSpec) : Drawing Branch := fun d =>
  let b : Branch := {
    id := d.branches.length
    function := d.graph.function
    kind := o.kind
    line := o.line
    condition := o.condition
    decisionLine := o.decisionLine
    isTrueEdge := o.isTrueEdge
    caseValue := o.caseValue
    isFeasible := true
    isCovered := false
    isReachable := true
    decisionNode := decision
    armNode := none }
  (b, { d with branches := d.branches ++ [b] })

def addArm (b : Branch) (kind : FlowEdgeKind) (label : Option String) : Drawing Nat := do
  let arm ← addNode .arm none b.line (.str b.condition) (some b.id) none
  modify fun d => { d with branches := d.branches.modify b.id ({ · with armNode := some arm }) }
  addEdge b.decisionNode arm kind label
  return arm

def addLabel (name : Json) (id : Nat) : Drawing Unit :=
  modify fun d => { d with labels := d.labels.put name id }

def addGoto (id : Nat) (name : Json) : Drawing Unit :=
  modify fun d => { d with gotos := d.gotos ++ [(id, name)] }

/-- Closes the open jumps; one to an unknown label leaves the function. -/
def closeGotos : Drawing Unit := do
  let d ← get
  d.gotos.forM fun (id, name) =>
    addEdge id ((d.labels.get? name).getD FlowGraph.exit) .gotoJump none

/-! ## Decisions -/

def guardOf (l : Label) : String :=
  let text := Text.trim l.condition.textOrEmpty
  if text.isEmpty then "1" else text

def firstLine (t : Option Tree) (other : Json) : Json :=
  match t with
  | none => other
  | some t => ((t.walk.map fun n => n.label.line).find? fun line => !line.isVoid).getD other

structure TwoWay where
  decision : Nat
  whenTrue : Nat
  whenFalse : Nat

/-- Adds a decision with two outcomes, which lead to the given statements. -/
def addTwoWay (l : Label) (current : Option Nat) (thenTree elseTree : Option Tree)
    (loopExit : Option Nat) : Drawing TwoWay := do
  let guard := guardOf l
  let line := l.line
  let decision ← addNode .decision (some l.kind) line (.str guard) none loopExit
  link current decision .fallThrough
  let t ← addBranch decision ⟨l.kind, firstLine thenTree line, guard, line, true, none⟩
  let f ← addBranch decision
    ⟨l.kind, firstLine elseTree line, Guard.negate guard, line, false, none⟩
  let whenTrue ← addArm t .branchTrue none
  let whenFalse ← addArm f .branchFalse none
  return ⟨decision, whenTrue, whenFalse⟩

end Draft

/-! ## Building flow graphs -/

structure SwitchContext where
  /-- The branch of each case label, under the number of the label in the body. -/
  cases : List (Nat × Branch)
  default : Branch

structure JumpTargets where
  breakTo : Option Nat
  continueTo : Option Nat
  switch : Option SwitchContext

namespace Draft

/-! ## Leaves -/

def shownText (l : Label) : Json :=
  l.text.orElse (l.condition.orElse (l.callee.orElse (l.name.orElse (.str l.kind.name))))

def labelName (l : Label) : Json := l.name.orElse (.str "")

/-- Adds the conditional expressions of a statement as decisions, in the order of the text. -/
def addTernaries (current : Option Nat) : List Tree → Drawing (Option Nat)
  | [] => return current
  | e :: es => do
    let ⟨_, t, f⟩ ← addTwoWay e.label current e.children[0]? e.children[1]? none
    let join ← addPoint .join e.label.line
    link (some t) join .fallThrough
    link (some f) join .fallThrough
    addTernaries (some join) es

def addLeaf (t : Tree) (current : Option Nat) (targets : JumpTargets) : Drawing (Option Nat) := do
  let current ← addTernaries current (t.collect .ternary)
  let id ← addStatement .statement t.label (shownText t.label)
  link current id .fallThrough
  match t.kind with
  | .return =>
    addEdge id FlowGraph.exit .returnJump none
    return none
  | .break =>
    addEdge id (targets.breakTo.getD FlowGraph.exit) .breakJump none
    return none
  | .continue =>
    addEdge id (targets.continueTo.getD FlowGraph.exit) .continueJump none
    return none
  | .goto =>
    addGoto id (labelName t.label)
    return none
  | _ => return some id

/-! ## Switches -/

mutual

/-- The case and default labels in a statement, with their numbers; those of an inner switch are
not among them. -/
def switchLabels : Tree → Nat → List (Nat × Label × Tree)
  | .node l ts, id =>
    let own := if l.kind = .case ∨ l.kind = .default then [(id, l, Tree.node l ts)] else []
    own ++ if l.kind = .switch then [] else switchLabelsAll ts (id + 1)

def switchLabelsAll : List Tree → Nat → List (Nat × Label × Tree)
  | [], _ => []
  | t :: ts, id => switchLabels t id ++ switchLabelsAll ts (id + t.size)

end

def subjectOf (l : Label) : String :=
  Text.trim (l.condition.orElse (l.text.orElse (.str "0"))).textOrEmpty

def givenValue (l : Label) : Json := l.value.orElse l.text

def caseValueOf (l : Label) : String := Text.trim (givenValue l).textOrEmpty

def addCases (decision : Nat) (subject : String) (line : Json) :
    List (Nat × Label × Tree) → Drawing (List (Nat × Branch))
  | [] => return []
  | (id, l, t) :: rest => do
    let value := caseValueOf l
    let b ← addBranch decision
      ⟨.case, firstLine (some t) line, subject ++ " == " ++ value, line, true, some value⟩
    return (id, b) :: (← addCases decision subject line rest)

def defaultCondition (subject : String) (values : List String) : String :=
  match values with
  | [] => "1"
  | vs => Guard.negate (Text.join " || " (vs.map fun v => subject ++ " == " ++ v))

def addSwitchBranches (decision : Nat) (l : Label) (labels : List (Nat × Label × Tree)) :
    Drawing SwitchContext := do
  let subject := subjectOf l
  let caseLabels := labels.filter fun x => x.2.1.kind ≠ .default
  let defaultLabel := (labels.filter fun x => x.2.1.kind = .default).getLast?
  let line := l.line
  let cases ← addCases decision subject line caseLabels
  let default ← addBranch decision
    ⟨.default, firstLine (defaultLabel.map fun x => x.2.2) line,
      defaultCondition subject (caseLabels.map fun x => caseValueOf x.2.1), line, false, none⟩
  return ⟨cases, default⟩

def addSwitchLabel (l : Label) (id : Nat) (current : Option Nat) (switch : Option SwitchContext) :
    Drawing Nat := do
  let text := if l.kind = .default then "default:"
    else "case " ++ (givenValue l).plain ++ ":"
  let label ← addStatement .label l (.str text)
  link current label .fallThrough
  match switch with
  | none => pure ()
  | some ctx =>
    if l.kind = .default then
      let arm ← addArm ctx.default .switchDefault none
      link (some arm) label .fallThrough
    else
      match ctx.cases.lookup id with
      | some b =>
        let arm ← addArm b .switchCase b.caseValue
        link (some arm) label .fallThrough
      | none => pure ()
  return label

/-! ## Statements -/

mutual

def addTree : Tree → Nat → Option Nat → JumpTargets → Drawing (Option Nat)
  | .node l ts, id, current, targets =>
    match l.kind with
    | .compound => addSequence ts (id + 1) current targets
    | .ifElse => do
      let join ← addPoint .join l.line
      addChain join l ts (id + 1) current targets
      ifEntered join
    | .whileLoop => do
      let exit ← addPoint .loopExit l.line
      let ⟨header, t, f⟩ ← addTwoWay l current ts[0]? none (some exit)
      let last ← addFirst ts (id + 1) (some t) ⟨some exit, some header, targets.switch⟩
      link last header .backEdge
      link (some f) exit .fallThrough
      return some exit
    | .doLoop => do
      -- The exit is the node after the entry.
      let next := (← get).graph.nodes.length + 1
      let top ← addNode .loopEntry none l.line (.str "") none (some next)
      let exit ← addPoint .loopExit l.line
      link current top .fallThrough
      let test ← addPoint .join l.line
      let last ← addFirst ts (id + 1) (some top) ⟨some exit, some test, targets.switch⟩
      link last test .fallThrough
      let ⟨_, t, f⟩ ← addTwoWay l (some test) ts[0]? none none
      link (some t) top .backEdge
      link (some f) exit .fallThrough
      return some exit
    | .forLoop => do
      let exit ← addPoint .loopExit l.line
      let ⟨header, t, f⟩ ← addTwoWay l current ts[0]? none (some exit)
      let step ← addPoint .forStep l.line
      let last ← addFirst ts (id + 1) (some t) ⟨some exit, some step, targets.switch⟩
      link last step .fallThrough
      link (some step) header .backEdge
      link (some f) exit .fallThrough
      return some exit
    | .switch => do
      let decision ← addStatement .decision l (.str (subjectOf l))
      link current decision .fallThrough
      let exit ← addPoint .switchExit l.line
      let labels := switchLabelsAll ts (id + 1)
      let ctx ← addSwitchBranches decision l labels
      let last ← addSequence ts (id + 1) none ⟨some exit, targets.continueTo, some ctx⟩
      link last exit .fallThrough
      if labels.all fun x => x.2.1.kind ≠ .default then
        let arm ← addArm ctx.default .switchDefault none
        link (some arm) exit .fallThrough
      ifEntered exit
    | .case | .default => do
      let label ← addSwitchLabel l id current targets.switch
      addSequence ts (id + 1) (some label) targets
    | .label => do
      let label ← addStatement .label l (.str (l.name.plain ++ ":"))
      link current label .fallThrough
      addLabel (labelName l) label
      addSequence ts (id + 1) (some label) targets
    | _ => addLeaf (.node l ts) current targets

def addSequence : List Tree → Nat → Option Nat → JumpTargets → Drawing (Option Nat)
  | [], _, current, _ => return current
  | t :: ts, id, current, targets => do
    let current ← addTree t id current targets
    addSequence ts (id + t.size) current targets

def addFirst : List Tree → Nat → Option Nat → JumpTargets → Drawing (Option Nat)
  | [], _, current, _ => return current
  | t :: _, id, current, targets => addTree t id current targets

/-- Adds a conditional statement with the given parts, and the conditional statements that follow in
its else parts; all of them end in one join. -/
def addChain (join : Nat) (l : Label) : List Tree → Nat → Option Nat → JumpTargets → Drawing Unit
  | [], _, current, _ => do
    let ⟨_, t, f⟩ ← addTwoWay l current none none none
    link (some t) join .fallThrough
    link (some f) join .fallThrough
  | [a], id, current, targets => do
    let ⟨_, t, f⟩ ← addTwoWay l current (some a) none none
    let last ← addTree a id (some t) targets
    link last join .fallThrough
    link (some f) join .fallThrough
  | a :: .node l' ts' :: _, id, current, targets => do
    let ⟨_, t, f⟩ ← addTwoWay l current (some a) (some (.node l' ts')) none
    let last ← addTree a id (some t) targets
    link last join .fallThrough
    if l'.kind = .ifElse then addChain join l' ts' (id + a.size + 1) (some f) targets
    else
      let last ← addTree (.node l' ts') (id + a.size) (some f) targets
      link last join .fallThrough

end

theorem addTree_compound (l : Label) (ts : List Tree) (id : Nat) (current : Option Nat)
    (targets : JumpTargets) (d : Draft) (h : l.kind = .compound) :
    addTree (.node l ts) id current targets d = addSequence ts (id + 1) current targets d := by
  simp only [addTree, h]

def addBody (body : Tree) : Drawing Unit := do
  let last ← addTree body 0 (some FlowGraph.entry) ⟨none, none, none⟩
  link last FlowGraph.exit .fallThrough
  closeGotos

/-- The draft of a whole function, with the branches marked that control can reach. -/
def drawn (function : Json) (body : Tree) : Draft :=
  let d := (addBody body (empty function)).2
  let reached := d.graph.reachable
  { d with branches := d.branches.map fun b =>
      { b with isReachable := reached.contains b.decisionNode } }

/-! ## Bodies that can be drawn

Conditions, the subjects of switches and the values of cases have to be texts, and the names of
labels have to be keys. -/

def checkGuard (l : Label) : Except Error Unit := do
  let _ ← l.condition.trimmed

def checkSubject (l : Label) : Except Error Unit := do
  let _ ← (l.condition.orElse l.text).trimmed

def checkCaseValue (l : Label) : Except Error Unit := do
  let _ ← (givenValue l).trimmed

def checkName (name : Json) : Except Error Unit := do
  let _ ← name.asKey

mutual

def checkTree : Tree → Except Error Unit
  | .node l ts =>
    match l.kind with
    | .compound | .case | .default => checkAll ts
    | .ifElse => checkChain l ts
    | .whileLoop | .forLoop => do
      checkGuard l
      checkFirst ts
    | .doLoop => do
      checkFirst ts
      checkGuard l
    | .switch => do
      checkSubject l
      (switchLabelsAll ts 0).forM fun (_, label, _) =>
        if label.kind = .default then .ok () else checkCaseValue label
      checkAll ts
    | .label => do
      checkName (labelName l)
      checkAll ts
    | _ => ((Tree.node l ts).collect .ternary).forM fun e => checkGuard e.label

def checkAll : List Tree → Except Error Unit
  | [] => .ok ()
  | t :: ts => do
    checkTree t
    checkAll ts

def checkFirst : List Tree → Except Error Unit
  | [] => .ok ()
  | t :: _ => checkTree t

def checkChain (l : Label) : List Tree → Except Error Unit
  | [] => checkGuard l
  | [a] => do
    checkGuard l
    checkTree a
  | a :: .node l' ts' :: _ => do
    checkGuard l
    checkTree a
    if l'.kind = .ifElse then checkChain l' ts' else checkTree (.node l' ts')

end

def ofBody (function : Json) (body : Tree) : Except Error Draft := do
  checkTree body
  let d := drawn function body
  d.gotos.forM fun (_, name) => checkName name
  return d

end Draft

end Branchwise
