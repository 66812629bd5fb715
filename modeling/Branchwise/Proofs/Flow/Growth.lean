import Branchwise.Flow.Build
import Branchwise.Proofs.Flow.Fragment

/-!
# How a draft grows

Drawing a statement adds nodes at the end and edges between nodes.  Edges start at the new nodes, at
the node where control is, and, for a label of a switch, at the decision of the switch.  `Grown`
says this of any step of a construction.

Everything here holds of every statement tree, with jumps to labels or without.
-/

namespace Branchwise

open List FlowGraph

def SwitchContext.Decides (ctx : SwitchContext) (u : Nat) : Prop :=
  ctx.default.decisionNode = u ∨ ∃ x ∈ ctx.cases, x.2.decisionNode = u

def SwitchContext.branches (ctx : SwitchContext) : List Branch :=
  ctx.cases.map Prod.snd ++ [ctx.default]

def Branch.spec (b : Branch) : Draft.BranchSpec :=
  ⟨b.kind, b.line, b.condition, b.decisionLine, b.isTrueEdge, b.caseValue⟩

namespace Draft

def size (d : Draft) : Nat := d.graph.nodes.length

def Edge (d : Draft) (u v : Nat) : Prop := v ∈ d.graph.successors u

def Sourced (d : Draft) : Prop := ∀ u v, d.Edge u v → u < d.size

theorem edge_iff (d : Draft) (u v : Nat) :
    d.Edge u v ↔ ∃ e ∈ d.graph.edges, e.src = u ∧ e.dst = v := by
  simp [Edge, successors, outEdges, and_assoc]

/-- A later draft has the old nodes and edges; new edges start at new nodes and at some old ones. -/
structure Grown (d d' : Draft) (sources : Nat → Prop) : Prop where
  size_le : d.size ≤ d'.size
  node_eq : ∀ u < d.size, d'.graph.node? u = d.graph.node? u
  edge_of : ∀ u v, d.Edge u v → d'.Edge u v
  edge_new : ∀ u v, d'.Edge u v → d.Edge u v ∨ d.size ≤ u ∨ sources u
  sourced : d.Sourced → d'.Sourced

namespace Grown

variable {d d' d'' : Draft} {s s' : Nat → Prop}

theorem refl (d : Draft) (s : Nat → Prop) : Grown d d s where
  size_le := le_rfl
  node_eq := fun _ _ => rfl
  edge_of := fun _ _ h => h
  edge_new := fun _ _ h => .inl h
  sourced := id

section

variable (h : Grown d d' s)
include h

theorem trans (h' : Grown d' d'' s') (hs : ∀ u < d.size, s' u → s u) : Grown d d'' s where
  size_le := h.size_le.trans h'.size_le
  node_eq := fun u hu => (h'.node_eq u (hu.trans_le h.size_le)).trans (h.node_eq u hu)
  edge_of := fun u v he => h'.edge_of u v (h.edge_of u v he)
  edge_new := by
    intro u v he
    have hle := h.size_le
    by_cases hu : d.size ≤ u
    · exact .inr (.inl hu)
    · rcases h'.edge_new u v he with he | hnew | hsrc
      · exact h.edge_new u v he
      · omega
      · exact .inr (.inr (hs u (Nat.lt_of_not_le hu) hsrc))
  sourced := fun hd => h'.sourced (h.sourced hd)

theorem mono (hs : ∀ u < d.size, s u → s' u) : Grown d d' s' :=
  (refl d s').trans h hs

theorem of_graph_eq (hg : d''.graph = d'.graph) : Grown d d'' s := by
  obtain ⟨g', _, _, _⟩ := d'
  obtain ⟨g'', _, _, _⟩ := d''
  obtain rfl : g'' = g' := hg
  exact ⟨h.size_le, h.node_eq, h.edge_of, h.edge_new, h.sourced⟩

theorem edge_iff {u : Nat} (hu : u < d.size) (hs : ¬s u) (v : Nat) : d'.Edge u v ↔ d.Edge u v := by
  constructor
  · intro he
    rcases h.edge_new u v he with he | hnew | hsrc
    · exact he
    · omega
    · exact absurd hsrc hs
  · exact h.edge_of u v

theorem marks_eq {u : Nat} (hu : u < d.size) : d'.graph.marks u = d.graph.marks u := by
  unfold marks
  rw [h.node_eq u hu]

end

end Grown

/-! ## Single steps -/

/-- The draft with one more node. -/
def push (d : Draft) (n : FlowNode) : Draft := { d with graph.nodes := d.graph.nodes ++ [n] }

/-- The next node, when it stands for no statement. -/
def point (d : Draft) (kind : FlowNodeKind) (line : Json) : FlowNode :=
  ⟨d.size, kind, none, line, .str "", none, none⟩

/-- The next node, when it is the entry of a loop whose end follows it. -/
def loopEntry (d : Draft) (l : Label) : FlowNode :=
  { d.point .loopEntry l.line with loopExit := some (d.size + 1) }

/-- The next node, when it stands for a statement. -/
def stated (d : Draft) (kind : FlowNodeKind) (l : Label) (text : Json) : FlowNode :=
  ⟨d.size, kind, some l.kind, l.line, text, none, none⟩

/-- The next node, when it is the arm of a branch. -/
def arm (d : Draft) (b : Branch) : FlowNode :=
  ⟨d.size, .arm, none, b.line, .str b.condition, some b.id, none⟩

section Steps

variable (d : Draft) (n : FlowNode)

@[simp]
theorem size_push : (d.push n).size = d.size + 1 := length_append

@[simp]
theorem branches_push : (d.push n).branches = d.branches := rfl

@[simp]
theorem edge_push (u v : Nat) : (d.push n).Edge u v ↔ d.Edge u v := Iff.rfl

theorem node?_push_self : (d.push n).graph.node? d.size = some n := getElem?_concat_length

theorem marks_push_self : (d.push n).graph.marks d.size = n.branch.toList := by
  simp [push, size, marks, node?]

theorem grown_push (s : Nat → Prop) : Grown d (d.push n) s where
  size_le := by
    rw [size_push]
    exact Nat.le_succ _
  node_eq := by
    intro u hu
    exact getElem?_append_left hu
  edge_of := fun _ _ h => h
  edge_new := fun _ _ h => .inl h
  sourced := by
    intro h u v he
    rw [size_push]
    exact (h u v he).trans (Nat.lt_succ_self _)

theorem addPoint_apply (kind : FlowNodeKind) (line : Json) :
    addPoint kind line d = (d.size, d.push (d.point kind line)) := rfl

theorem addStatement_apply (kind : FlowNodeKind) (l : Label) (text : Json) :
    addStatement kind l text d = (d.size, d.push (d.stated kind l text)) := rfl

end Steps

theorem edge_addEdge (d : Draft) (src dst : Nat) (kind : FlowEdgeKind) (label : Option String)
    (u v : Nat) :
    (addEdge src dst kind label d).2.Edge u v ↔ d.Edge u v ∨ u = src ∧ v = dst := by
  rw [edge_iff, edge_iff]
  simp only [addEdge, mem_append, mem_singleton]
  constructor
  · rintro ⟨e, he | rfl, hu, hv⟩
    · exact .inl ⟨e, he, hu, hv⟩
    · exact .inr ⟨hu.symm, hv.symm⟩
  · rintro (⟨e, he, hu, hv⟩ | ⟨rfl, rfl⟩)
    · exact ⟨e, .inl he, hu, hv⟩
    · exact ⟨_, .inr rfl, rfl, rfl⟩

theorem grown_addEdge (d : Draft) {src : Nat} (dst : Nat) (kind : FlowEdgeKind)
    (label : Option String) (hsrc : src < d.size) :
    Grown d (addEdge src dst kind label d).2 (· = src) where
  size_le := le_rfl
  node_eq := fun _ _ => rfl
  edge_of := fun u v h => (edge_addEdge d src dst kind label u v).mpr (.inl h)
  edge_new := by
    intro u v he
    rcases (edge_addEdge d src dst kind label u v).mp he with he | ⟨rfl, _⟩
    · exact .inl he
    · exact .inr (.inr rfl)
  sourced := by
    intro h u v he
    rcases (edge_addEdge d src dst kind label u v).mp he with he | ⟨rfl, _⟩
    · exact h u v he
    · exact hsrc

section Links

variable (d : Draft) (src : Option Nat) (dst : Nat) (kind : FlowEdgeKind)

@[simp]
theorem size_link : (link src dst kind d).2.size = d.size := by
  cases src <;> rfl

@[simp]
theorem branches_link : (link src dst kind d).2.branches = d.branches := by
  cases src <;> rfl

@[simp]
theorem gotos_link : (link src dst kind d).2.gotos = d.gotos := by
  cases src <;> rfl

@[simp]
theorem node?_link (u : Nat) : (link src dst kind d).2.graph.node? u = d.graph.node? u := by
  cases src <;> rfl

@[simp]
theorem marks_link (u : Nat) : (link src dst kind d).2.graph.marks u = d.graph.marks u := by
  cases src <;> rfl

theorem edge_link (u v : Nat) :
    (link src dst kind d).2.Edge u v ↔ d.Edge u v ∨ src = some u ∧ v = dst := by
  cases src with
  | none =>
    show d.Edge u v ↔ _
    simp
  | some s =>
    show (addEdge s dst kind none d).2.Edge u v ↔ _
    rw [edge_addEdge, Option.some.injEq, eq_comm (a := u)]

end Links

theorem grown_link (d : Draft) {src : Option Nat} (dst : Nat) (kind : FlowEdgeKind)
    (hsrc : ∀ u, src = some u → u < d.size) :
    Grown d (link src dst kind d).2 (src = some ·) := by
  cases src with
  | none => exact Grown.refl d _
  | some s =>
    refine (grown_addEdge d dst kind none (hsrc s rfl)).mono ?_
    rintro u _ rfl
    rfl

/-! ## Arms and decisions -/

section Arms

variable (d : Draft) (b : Branch) (kind : FlowEdgeKind) (label : Option String)

@[simp]
theorem fst_addArm : (addArm b kind label d).1 = d.size := rfl

@[simp]
theorem size_addArm : (addArm b kind label d).2.size = d.size + 1 :=
  size_push d _

@[simp]
theorem length_branches_addArm : (addArm b kind label d).2.branches.length = d.branches.length :=
  length_modify _ _ _

theorem marks_addArm_self : (addArm b kind label d).2.graph.marks d.size = [b.id] :=
  marks_push_self d _

theorem edge_addArm (u v : Nat) :
    (addArm b kind label d).2.Edge u v ↔ d.Edge u v ∨ u = b.decisionNode ∧ v = d.size :=
  edge_addEdge _ b.decisionNode d.size kind label u v

theorem grown_addArm (hb : b.decisionNode < d.size) :
    Grown d (addArm b kind label d).2 (· = b.decisionNode) := by
  have hnode := grown_push d (d.arm b) (· = b.decisionNode)
  refine { hnode with edge_of := ?_, edge_new := ?_, sourced := ?_ }
  · exact fun u v h => (edge_addArm d b kind label u v).mpr (.inl h)
  · intro u v he
    rcases (edge_addArm d b kind label u v).mp he with he | ⟨rfl, _⟩
    · exact .inl he
    · exact .inr (.inr rfl)
  · intro h u v he
    rw [size_addArm]
    rcases (edge_addArm d b kind label u v).mp he with he | ⟨rfl, _⟩
    · exact (h u v he).trans (Nat.lt_succ_self _)
    · exact hb.trans (Nat.lt_succ_self _)

end Arms

/-- A decision is added where control is, with its branches. -/
def divide (d : Draft) (n : FlowNode) (current : Option Nat) (bs : List Branch) : Draft :=
  { (link current d.size .fallThrough (d.push n)).2 with branches := d.branches ++ bs }

section Divide

variable (d : Draft) (n : FlowNode) (current : Option Nat) (bs : List Branch)

@[simp]
theorem size_divide : (d.divide n current bs).size = d.size + 1 :=
  (size_link ..).trans (size_push d n)

theorem edge_divide (u v : Nat) :
    (d.divide n current bs).Edge u v ↔ d.Edge u v ∨ current = some u ∧ v = d.size :=
  edge_link (d.push n) current d.size .fallThrough u v

theorem node?_divide : (d.divide n current bs).graph.node? d.size = some n :=
  (node?_link (d.push n) ..).trans (node?_push_self d n)

end Divide

/-- Branches of one decision with the given outcomes, numbered from some number on. -/
structure Numbered (decision first : Nat) (specs : List BranchSpec) (bs : List Branch) : Prop where
  ids_eq : bs.map Branch.id = range' first specs.length
  specs_eq : bs.map Branch.spec = specs
  fresh : ∀ b ∈ bs, b.decisionNode = decision ∧ b.armNode = none

theorem Numbered.append {decision first : Nat} {specs specs' : List BranchSpec}
    {bs bs' : List Branch} (h : Numbered decision first specs bs)
    (h' : Numbered decision (first + specs.length) specs' bs') :
    Numbered decision first (specs ++ specs') (bs ++ bs') where
  ids_eq := by rw [map_append, h.ids_eq, h'.ids_eq, range'_append_1, length_append]
  specs_eq := by rw [map_append, h.specs_eq, h'.specs_eq]
  fresh := forall_mem_append.mpr ⟨h.fresh, h'.fresh⟩

theorem Numbered.getElem?_append_iff {decision : Nat} {specs : List BranchSpec}
    {bs bs' : List Branch} (h : Numbered decision bs.length specs bs') {i : Nat} {b : Branch} :
    (bs ++ bs')[i]? = some b ↔ bs[i]? = some b ∨ b ∈ bs' ∧ b.id = i := by
  have hid (j : Nat) (hj : bs'[j]? = some b) : b.id = bs.length + j := by
    have hj' := congrArg (·[j]?) h.ids_eq
    simp only [getElem?_map, hj, Option.map_some] at hj'
    obtain ⟨_, heq⟩ := List.getElem?_eq_some_iff.mp hj'.symm
    rw [← heq, getElem_range', Nat.one_mul]
  rw [getElem?_append]
  constructor
  · intro hb
    split at hb
    · exact .inl hb
    · have := hid _ hb
      exact .inr ⟨mem_of_getElem? hb, by omega⟩
  · rintro (hb | ⟨hb, rfl⟩)
    · rw [if_pos (List.getElem?_eq_some_iff.mp hb).1, hb]
    · obtain ⟨j, hj⟩ := mem_iff_getElem?.mp hb
      rw [hid j hj, if_neg (by omega), Nat.add_sub_cancel_left, hj]

theorem numbered_addBranch (decision : Nat) (o : BranchSpec) (d : Draft) :
    Numbered decision d.branches.length [o] [(addBranch decision o d).1] :=
  ⟨rfl, rfl, forall_mem_singleton.mpr ⟨rfl, rfl⟩⟩

abbrev twoWaySpecs (l : Label) (line₁ line₂ : Json) : List BranchSpec :=
  [⟨l.kind, line₁, guardOf l, l.line, true, none⟩,
    ⟨l.kind, line₂, Guard.negate (guardOf l), l.line, false, none⟩]

/-- A decision with its two arms has been added where control was. -/
structure Forked (d : Draft) (current loopExit : Option Nat) (d' : Draft) : Prop where
  size_eq : d'.size = d.size + 3
  branches_eq : d'.branches.length = d.branches.length + 2
  edge_iff : ∀ u v, d'.Edge u v ↔ d.Edge u v ∨ (current = some u ∧ v = d.size) ∨
    u = d.size ∧ (v = d.size + 1 ∨ v = d.size + 2)
  exists_node : ∃ n, d'.graph.node? d.size = some n ∧ n.branch = none ∧ n.loopExit = loopExit
  marks_whenTrue : d'.graph.marks (d.size + 1) = [d.branches.length]
  marks_whenFalse : d'.graph.marks (d.size + 2) = [d.branches.length + 1]

section

variable (d : Draft) (l : Label) (current : Option Nat) (thenTree elseTree : Option Tree)
  (loopExit : Option Nat)

theorem fst_addTwoWay : (addTwoWay l current thenTree elseTree loopExit d).1
    = ⟨d.size, d.size + 1, d.size + 2⟩ := by
  have hsize (n : FlowNode) :
      (link current d.size .fallThrough (d.push n)).2.size = d.size + 1 := by
    rw [size_link, size_push]
  show TwoWay.mk d.size (link current d.size .fallThrough (d.push _)).2.size
    (addArm _ .branchTrue none _).2.size = _
  rw [size_addArm, hsize]
  exact congrArg (TwoWay.mk _ _ <| · + 1) (hsize _)

theorem exists_addTwoWay : ∃ t f, Numbered d.size d.branches.length
      (twoWaySpecs l (firstLine thenTree l.line) (firstLine elseTree l.line)) [t, f] ∧
    (addTwoWay l current thenTree elseTree loopExit d).2 =
      (addArm f .branchFalse none (addArm t .branchTrue none (d.divide
        ⟨d.size, .decision, some l.kind, l.line, .str (guardOf l), none, loopExit⟩ current
        [t, f])).2).2 := by
  let n : FlowNode := ⟨d.size, .decision, some l.kind, l.line, .str (guardOf l), none, loopExit⟩
  let d2 := (link current d.size .fallThrough (d.push n)).2
  let t : BranchSpec := ⟨l.kind, firstLine thenTree l.line, guardOf l, l.line, true, none⟩
  let f : BranchSpec :=
    ⟨l.kind, firstLine elseTree l.line, Guard.negate (guardOf l), l.line, false, none⟩
  let rt := addBranch d.size t d2
  let rf := addBranch d.size f rt.2
  have hbranches : d2.branches = d.branches := branches_link (d.push n) current d.size .fallThrough
  refine ⟨rt.1, rf.1, ?_, ?_⟩
  · have hf := numbered_addBranch d.size f rt.2
    rw [show rt.2.branches.length = _ from length_append] at hf
    exact hbranches ▸ (numbered_addBranch d.size t d2).append hf
  · have hrf : rf.2 = d.divide n current [rt.1, rf.1] := by
      show Draft.mk d2.graph (d2.branches ++ [rt.1] ++ [rf.1]) _ _ = _
      rw [append_assoc, hbranches]
      rfl
    exact congrArg
      (fun d => (addArm rf.1 .branchFalse none (addArm rt.1 .branchTrue none d).2).2) hrf

theorem forked_addTwoWay :
    Forked d current loopExit (addTwoWay l current thenTree elseTree loopExit d).2 := by
  obtain ⟨t, f, hbs, heq⟩ := exists_addTwoWay d l current thenTree elseTree loopExit
  obtain ⟨ht, hf⟩ : t.id = d.branches.length ∧ f.id = d.branches.length + 1 := by
    simpa [twoWaySpecs, range'_succ] using hbs.ids_eq
  have htd := (hbs.fresh t mem_cons_self).1
  have hfd := (hbs.fresh f (mem_cons_of_mem t mem_cons_self)).1
  rw [heq]
  generalize hn : FlowNode.mk d.size .decision _ _ _ none loopExit = n
  let d2 := d.divide n current [t, f]
  let d3 := (addArm t .branchTrue none d2).2
  have hsize2 : d2.size = d.size + 1 := size_divide ..
  have hsize3 : d3.size = d.size + 2 := by rw [size_addArm, hsize2]
  have g3 := grown_addArm d2 t .branchTrue none (by omega)
  have g4 := grown_addArm d3 f .branchFalse none (by omega)
  refine ⟨?_, ?_, fun u v => ?_, ⟨n, ?_, hn ▸ rfl, hn ▸ rfl⟩, ?_, ?_⟩
  · rw [size_addArm, hsize3]
  · rw [length_branches_addArm, length_branches_addArm]
    exact length_append
  · rw [edge_addArm, edge_addArm, edge_divide, htd, hfd, hsize2, hsize3]
    tauto
  · rw [g4.node_eq _ (by omega), g3.node_eq _ (by omega), node?_divide]
  · rw [g4.marks_eq (by omega), ← hsize2, marks_addArm_self, ht]
  · rw [← hsize3, marks_addArm_self, hf]

end

/-! ## Constructions as sequences of drafts

A construction is read as the drafts that its steps give, so that each step is followed by the facts
about it. -/

theorem bind_apply {α β : Type} (m : Drawing α) (f : α → Drawing β) (d : Draft) :
    (m >>= f) d = f (m d).1 (m d).2 := rfl

theorem pure_apply {α : Type} (a : α) (d : Draft) : (pure a : Drawing α) d = (a, d) := rfl

/-! ### Branches of a switch -/

def caseSpec (subject : String) (line : Json) (x : Json × String) : BranchSpec :=
  ⟨.case, x.1, subject ++ " == " ++ x.2, line, true, some x.2⟩

def switchSpecs (l : Label) (cases : List (Json × String)) (line : Json) : List BranchSpec :=
  cases.map (caseSpec (subjectOf l) l.line) ++
    [⟨.default, line, defaultCondition (subjectOf l) (cases.map Prod.snd), l.line, false, none⟩]

theorem exists_addCases (decision : Nat) (subject : String) (line : Json)
    (labels : List (Nat × Label × Tree)) (d : Draft) :
    ∃ bs, Numbered decision d.branches.length ((labels.map fun x =>
        (firstLine (some x.2.2) line, caseValueOf x.2.1)).map (caseSpec subject line)) bs ∧
      addCases decision subject line labels d =
        ((labels.map Prod.fst).zip bs, { d with branches := d.branches ++ bs }) := by
  induction labels generalizing d with
  | nil =>
    exact ⟨[], ⟨rfl, rfl, nofun⟩, congrArg (fun bs => ([], Draft.mk _ bs _ _)) (append_nil _).symm⟩
  | cons x labels ih =>
    let o := caseSpec subject line (firstLine (some x.2.2) line, caseValueOf x.2.1)
    let r := addBranch decision o d
    obtain ⟨bs, hbs, heq⟩ := ih r.2
    rw [show r.2.branches.length = _ from length_append] at hbs
    refine ⟨r.1 :: bs, (numbered_addBranch decision o d).append hbs, ?_⟩
    show ((x.1, r.1) :: (addCases decision subject line labels r.2).1,
      (addCases decision subject line labels r.2).2) = _
    rw [heq, map_cons, zip_cons_cons, ← singleton_append (l := bs), ← append_assoc]
    rfl

inductive SplitsInto (n : FlowNode) : List BranchSpec → Prop
  | twoWay {l : Label} {line₁ line₂ : Json} (hsource : n.source = some l.kind)
      (hkind : l.kind ≠ .switch) : SplitsInto n (twoWaySpecs l line₁ line₂)
  | switch {l : Label} {cases : List (Json × String)} {line : Json}
      (hsource : n.source = some .switch) (htext : n.text = .str (subjectOf l)) :
      SplitsInto n (switchSpecs l cases line)

def caseLabels (labels : List (Nat × Label × Tree)) : List (Nat × Label × Tree) :=
  labels.filter fun x => x.2.1.kind ≠ .default

/-- The branches of a switch: its cases in the order of their labels, and its default. -/
structure SwitchAdded (decision first : Nat) (l : Label) (labels : List (Nat × Label × Tree))
    (ctx : SwitchContext) : Prop where
  keys_eq : ctx.cases.map Prod.fst = (caseLabels labels).map Prod.fst
  ids_eq : ctx.cases.map (fun x => x.2.id) = range' first (caseLabels labels).length
  default_id : ctx.default.id = first + (caseLabels labels).length
  exists_specs : ∃ cases line, Numbered decision first (switchSpecs l cases line) ctx.branches

theorem exists_addSwitchBranches (decision : Nat) (l : Label)
    (labels : List (Nat × Label × Tree)) (d : Draft) :
    ∃ ctx, SwitchAdded decision d.branches.length l labels ctx ∧
      addSwitchBranches decision l labels d =
        (ctx, { d with branches := d.branches ++ ctx.branches }) := by
  obtain ⟨bs, hbs, heq⟩ := exists_addCases decision (subjectOf l) l.line (caseLabels labels) d
  have hids := hbs.ids_eq
  rw [length_map, length_map] at hids
  have hlength : bs.length = (caseLabels labels).length := by simpa using congrArg length hids
  have hsnd : (((caseLabels labels).map Prod.fst).zip bs).map Prod.snd = bs :=
    map_snd_zip (by rw [hlength, length_map])
  let other := (labels.filter fun x => x.2.1.kind = .default).getLast?.map fun x => x.2.2
  let cases := (caseLabels labels).map fun x => (firstLine (some x.2.2) l.line, caseValueOf x.2.1)
  let d1 : Draft := { d with branches := d.branches ++ bs }
  let o : BranchSpec := ⟨.default, firstLine other l.line,
    defaultCondition (subjectOf l) (cases.map Prod.snd), l.line, false, none⟩
  let b := (addBranch decision o d1).1
  have hb := numbered_addBranch decision o d1
  rw [show d1.branches.length = _ from length_append, hlength] at hb
  refine ⟨⟨((caseLabels labels).map Prod.fst).zip bs, b⟩,
    ⟨map_fst_zip (by rw [hlength, length_map]), ?_, ?_, cases, firstLine other l.line, ?_⟩, ?_⟩
  · rw [← hids, ← hsnd, map_map, hsnd]
    rfl
  · exact congrArg (d.branches.length + ·) hlength ▸ length_append
  · rw [SwitchContext.branches, hsnd]
    exact hbs.append (by rwa [length_map, length_map])
  · rw [SwitchContext.branches, hsnd, ← append_assoc]
    simp only [addSwitchBranches, bind_apply]
    rw [show addCases decision (subjectOf l) l.line (labels.filter _) d = _ from heq]
    simp only [cases, b, o, map_map]
    rfl

theorem SwitchAdded.length_eq {decision first : Nat} {l : Label}
    {labels : List (Nat × Label × Tree)} {ctx : SwitchContext}
    (h : SwitchAdded decision first l labels ctx) :
    ctx.branches.length = (caseLabels labels).length + 1 := by
  have hlength := congrArg length h.keys_eq
  simpa [SwitchContext.branches] using hlength

theorem SwitchAdded.decision_eq {decision first : Nat} {l : Label}
    {labels : List (Nat × Label × Tree)}
    {ctx : SwitchContext} (h : SwitchAdded decision first l labels ctx) {b : Branch}
    (hb : b ∈ ctx.branches) : b.decisionNode = decision := by
  obtain ⟨_, _, hbs⟩ := h.exists_specs
  exact (hbs.fresh b hb).1

def skip (current : Option Nat) (_ : JumpTargets) : Drawing (Option Nat) := fun d => (current, d)

/-- The node where control comes out of a statement leads to a join. -/
def leadTo (join : Nat) (draw : Option Nat → JumpTargets → Drawing (Option Nat))
    (current : Option Nat) (targets : JumpTargets) : Drawing Unit := fun d =>
  let r := draw current targets d
  link r.1 join .fallThrough r.2

/-- A decision between a statement, which leads to a join, and what is drawn after it. -/
def choice (join : Nat) (l : Label) (first other : Option Tree)
    (draw : Option Nat → JumpTargets → Drawing (Option Nat))
    (rest : Option Nat → JumpTargets → Drawing Unit) (current : Option Nat)
    (targets : JumpTargets) : Drawing Unit := fun d =>
  let d1 := (addTwoWay l current first other none d).2
  rest (some (d.size + 2)) targets (leadTo join draw (some (d.size + 1)) targets d1).2

section Equations

variable {l l' : Label} {t : Tree} {ts ts' : List Tree} {id join : Nat} {current : Option Nat}
  {targets : JumpTargets} {d : Draft}

/-- One conditional expression: a decision, two arms and the point where they meet. -/
def addTernary (current : Option Nat) (e : Tree) : Drawing (Option Nat) := fun d =>
  let d₁ := (addTwoWay e.label current e.children[0]? e.children[1]? none d).2
  let d₂ := d₁.push (d₁.point .join e.label.line)
  let d₃ := (link (some (d.size + 1)) d₁.size .fallThrough d₂).2
  (some d₁.size, (link (some (d.size + 2)) d₁.size .fallThrough d₃).2)

theorem addTernaries_cons (e : Tree) (es : List Tree) :
    addTernaries current (e :: es) d =
      addTernaries (addTernary current e d).1 es (addTernary current e d).2 := by
  simp only [addTernaries, addTernary, bind_apply, addPoint_apply, fst_addTwoWay]

def addLeafNode (t : Tree) (current : Option Nat) (targets : JumpTargets) : Drawing (Option Nat) :=
  fun d =>
    let d₁ := d.push (d.stated .statement t.label (shownText t.label))
    let d₂ := (link current d.size .fallThrough d₁).2
    match t.kind with
    | .return => (none, (addEdge d.size exit .returnJump none d₂).2)
    | .break => (none, (addEdge d.size (targets.breakTo.getD exit) .breakJump none d₂).2)
    | .continue =>
      (none, (addEdge d.size (targets.continueTo.getD exit) .continueJump none d₂).2)
    | .goto => (none, (addGoto d.size (labelName t.label) d₂).2)
    | _ => (some d.size, d₂)

theorem addLeaf_eq :
    addLeaf t current targets d =
      let r := addTernaries current (t.collect .ternary) d
      addLeafNode t r.1 targets r.2 := by
  simp only [addLeaf, addLeafNode]
  cases t.kind <;> rfl

def addLabelNode (l : Label) (text : Json) (current : Option Nat) (d : Draft) : Draft :=
  (link current d.size .fallThrough (d.push (d.stated .label l text))).2

def armOf (ctx : SwitchContext) (l : Label) (id : Nat) : Option Branch :=
  if l.kind = .default then some ctx.default else ctx.cases.lookup id

def addLabelArm (arm : Option Branch) (kind : FlowEdgeKind) (label : Option String) (x : Nat)
    (d : Draft) : Draft :=
  match arm with
  | none => d
  | some b => (link (some d.size) x .fallThrough (addArm b kind label d).2).2

theorem exists_addSwitchLabel (l : Label) (id : Nat) (current : Option Nat)
    (switch : Option SwitchContext) (d : Draft) :
    ∃ (text : Json) (kind : FlowEdgeKind) (label : Option String),
    addSwitchLabel l id current switch d = (d.size, addLabelArm (switch.bind (armOf · l id)) kind
      label d.size (addLabelNode l text current d)) := by
  refine ⟨.str (if l.kind = .default then "default:"
    else "case " ++ (givenValue l).plain ++ ":"), ?_⟩
  simp only [addSwitchLabel]
  cases switch with
  | none => exact ⟨.switchCase, none, rfl⟩
  | some ctx =>
    rw [Option.bind_some, armOf]
    by_cases hk : l.kind = .default
    · refine ⟨.switchDefault, none, ?_⟩
      simp only [if_pos hk]
      rfl
    · simp only [if_neg hk]
      cases ctx.cases.lookup id with
      | none => exact ⟨.switchCase, none, rfl⟩
      | some b => exact ⟨.switchCase, b.caseValue, rfl⟩

theorem addTree_ifElse (h : l.kind = .ifElse) :
    addTree (.node l ts) id current targets d =
      let d1 := d.push (d.point .join l.line)
      ifEntered d.size (addChain d.size l ts (id + 1) current targets d1).2 := by
  simp only [addTree, h, bind_apply, addPoint_apply]

theorem addTree_whileLoop (h : l.kind = .whileLoop) :
    addTree (.node l ts) id current targets d =
      let d1 := d.push (d.point .loopExit l.line)
      let d2 := (addTwoWay l current ts[0]? none (some d.size) d1).2
      let r3 := addFirst ts (id + 1) (some (d.size + 2))
        ⟨some d.size, some (d.size + 1), targets.switch⟩ d2
      let d4 := (link r3.1 (d.size + 1) .backEdge r3.2).2
      (some d.size, (link (some (d.size + 3)) d.size .fallThrough d4).2) := by
  simp only [addTree, h, bind_apply, pure_apply, addPoint_apply, fst_addTwoWay, size_push]

theorem addTree_doLoop (h : l.kind = .doLoop) :
    addTree (.node l ts) id current targets d =
      let d1 := d.push (d.loopEntry l)
      let d2 := d1.push (d1.point .loopExit l.line)
      let d3 := (link current d.size .fallThrough d2).2
      let d4 := d3.push (d3.point .join l.line)
      let r5 := addFirst ts (id + 1) (some d.size)
        ⟨some (d.size + 1), some (d.size + 2), targets.switch⟩ d4
      let d6 := (link r5.1 (d.size + 2) .fallThrough r5.2).2
      let d7 := (addTwoWay l (some (d.size + 2)) ts[0]? none none d6).2
      let d8 := (link (some (d6.size + 1)) d.size .backEdge d7).2
      (some (d.size + 1), (link (some (d6.size + 2)) (d.size + 1) .fallThrough d8).2) := by
  have hget : (MonadState.get : Drawing Draft) d = (d, d) := rfl
  have hentry : addNode .loopEntry none l.line (.str "") none (some (d.graph.nodes.length + 1)) d
      = (d.size, d.push (d.loopEntry l)) := rfl
  simp only [addTree, h, bind_apply, pure_apply, addPoint_apply, fst_addTwoWay, hget, hentry,
    size_link, size_push]

theorem addTree_forLoop (h : l.kind = .forLoop) :
    addTree (.node l ts) id current targets d =
      let d1 := d.push (d.point .loopExit l.line)
      let d2 := (addTwoWay l current ts[0]? none (some d.size) d1).2
      let d3 := d2.push (d2.point .forStep l.line)
      let r4 := addFirst ts (id + 1) (some (d.size + 2))
        ⟨some d.size, some (d.size + 4), targets.switch⟩ d3
      let d5 := (link r4.1 (d.size + 4) .fallThrough r4.2).2
      let d6 := (link (some (d.size + 4)) (d.size + 1) .backEdge d5).2
      (some d.size, (link (some (d.size + 3)) d.size .fallThrough d6).2) := by
  simp only [addTree, h, bind_apply, pure_apply, addPoint_apply, fst_addTwoWay, size_push,
    (forked_addTwoWay ..).size_eq]

theorem exists_addTree_switch (h : l.kind = .switch) (ts : List Tree) (id : Nat)
    (current : Option Nat) (targets : JumpTargets) (d : Draft) :
    ∃ ctx, SwitchAdded d.size d.branches.length l (switchLabelsAll ts (id + 1)) ctx ∧
      addTree (.node l ts) id current targets d =
        let d1 := d.divide (d.stated .decision l (.str (subjectOf l))) current ctx.branches
        let d2 := d1.push (d1.point .switchExit l.line)
        let r3 := addSequence ts (id + 1) none ⟨some (d.size + 1), targets.continueTo, some ctx⟩ d2
        let d4 := (link r3.1 (d.size + 1) .fallThrough r3.2).2
        let d5 := if (switchLabelsAll ts (id + 1)).all fun x => x.2.1.kind ≠ .default then
            (link (some d4.size) (d.size + 1) .fallThrough
              (addArm ctx.default .switchDefault none d4).2).2
          else d4
        ifEntered (d.size + 1) d5 := by
  let d1 := (link current d.size .fallThrough
    (d.push (d.stated .decision l (.str (subjectOf l))))).2
  let d2 := d1.push (d1.point .switchExit l.line)
  have hbranches : d2.branches = d.branches := branches_link _ current d.size .fallThrough
  obtain ⟨ctx, hctx, heq⟩ := exists_addSwitchBranches d.size l (switchLabelsAll ts (id + 1)) d2
  rw [hbranches] at hctx heq
  refine ⟨ctx, hctx, ?_⟩
  simp only [addTree, h, bind_apply, addPoint_apply, addStatement_apply, size_link, size_push]
  rw [heq]
  by_cases hall : ((switchLabelsAll ts (id + 1)).all fun x => x.2.1.kind ≠ .default)
  · simp only [hall, if_true, bind_apply, fst_addArm, size_link]
    rfl
  · rw [if_neg hall, if_neg hall]
    rfl

theorem addTree_caseOrDefault (h : l.kind = .case ∨ l.kind = .default) :
    addTree (.node l ts) id current targets d =
      addSequence ts (id + 1) (some d.size) targets
        (addSwitchLabel l id current targets.switch d).2 := by
  obtain ⟨text, kind, label, heq⟩ := exists_addSwitchLabel l id current targets.switch d
  rcases h with h | h <;> simp only [addTree, h, bind_apply, heq]

theorem addTree_label (h : l.kind = .label) :
    addTree (.node l ts) id current targets d =
      let d1 := addLabelNode l (.str (l.name.plain ++ ":")) current d
      addSequence ts (id + 1) (some d.size) targets (addLabel (labelName l) d.size d1).2 := by
  simp only [addTree, h, bind_apply, addStatement_apply, addLabelNode]

theorem addSequence_cons :
    addSequence (t :: ts) id current targets d =
      let r1 := addTree t id current targets d
      addSequence ts (id + t.size) r1.1 targets r1.2 := by
  simp only [addSequence, bind_apply]

theorem addChain_nil :
    addChain join l [] id = choice join l none none skip (leadTo join skip) := by
  funext current targets d
  simp only [addChain, bind_apply, fst_addTwoWay, choice, leadTo, skip]

theorem addChain_one :
    addChain join l [t] id = choice join l (some t) none (addTree t id) (leadTo join skip) := by
  funext current targets d
  simp only [addChain, bind_apply, fst_addTwoWay, choice, leadTo, skip]

theorem addChain_chain (h : l'.kind = .ifElse) :
    addChain join l (t :: .node l' ts' :: ts) id =
      choice join l (some t) (some (.node l' ts')) (addTree t id)
        (addChain join l' ts' (id + t.size + 1)) := by
  funext current targets d
  simp only [addChain, bind_apply, fst_addTwoWay, h, if_true, choice, leadTo]

theorem addChain_else (h : l'.kind ≠ .ifElse) :
    addChain join l (t :: .node l' ts' :: ts) id =
      choice join l (some t) (some (.node l' ts')) (addTree t id)
        (leadTo join (addTree (.node l' ts') (id + t.size))) := by
  funext current targets d
  simp only [addChain, bind_apply, fst_addTwoWay, h, if_false, choice, leadTo]

end Equations

variable {d d' : Draft} {current : Option Nat} {s : Nat → Prop} {l : Label} {ts : List Tree}
  {id : Nat} {targets : JumpTargets} {switch : Option SwitchContext} {p q : Prop} {x c : Nat}
  {r : Option Nat × Draft}

/-! ## Where control goes on -/

def Open (d : Draft) (x : Nat) : Prop := ∀ v, ¬d.Edge x v

theorem Sourced.open (h : d.Sourced) {x : Nat} (hx : d.size ≤ x) : d.Open x :=
  fun v he => absurd (h x v he) (Nat.not_lt.mpr hx)

theorem Open.grown (h : d.Open x) (g : Grown d d' s) (hx : x < d.size) (hs : ¬s x) : d'.Open x :=
  fun v he => h v ((g.edge_iff hx hs v).mp he)

theorem some_ne_some {m n : Nat} (h : m ≠ n) : some m ≠ some n := fun he => h (Option.some.inj he)

/-! ## Statements -/

theorem switchLabels_node (h : l.kind ≠ .case ∧ l.kind ≠ .default ∧ l.kind ≠ .switch) :
    switchLabels (.node l ts) id = switchLabelsAll ts (id + 1) := by
  simp [switchLabels, h]

theorem addFirst_eq_addSequence (ts : List Tree) (id : Nat) (current : Option Nat)
    (targets : JumpTargets) :
    addFirst ts id current targets = addSequence (ts.take 1) id current targets := by
  cases ts with
  | nil => rfl
  | cons t ts =>
    funext d
    show addTree t id current targets d = addSequence [t] id current targets d
    rfl

end Draft

end Branchwise
