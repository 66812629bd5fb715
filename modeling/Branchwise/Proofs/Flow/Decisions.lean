import Branchwise.Proofs.Flow.Labels

/-!
# The outcomes of decisions

A decision is drawn together with its branches, so the table of branches holds exactly the outcomes
of its statement and in their order.  Later steps change nothing of a branch but where its arm is.
-/

namespace Branchwise

open List FlowGraph

namespace Draft

/-- The branches of a draft, each as its decision and its outcome. -/
def outcomes (d : Draft) : List (Nat × BranchSpec) :=
  d.branches.map fun b => (b.decisionNode, b.spec)

/-- The outcomes that a draft has for a decision. -/
def outcomesAt (d : Draft) (u : Nat) : List BranchSpec :=
  (d.outcomes.filter fun x => x.1 = u).map Prod.snd

/-- Every branch is of a decision, every decision has its outcomes, and only arms have branches. -/
structure Decided (d : Draft) : Prop where
  node_lt : ∀ n ∈ d.graph.nodes, n.id < d.size
  arm : ∀ n ∈ d.graph.nodes, n.branch ≠ none → n.kind = .arm
  decision : ∀ x ∈ d.outcomes, ∃ n ∈ d.graph.nodes, n.kind = .decision ∧ n.id = x.1
  splits : ∀ n ∈ d.graph.nodes, n.kind = .decision → SplitsInto n (d.outcomesAt n.id)

section Steps

variable {d d' : Draft}

/-- Outcomes are those of nodes that are drawn. -/
theorem Decided.decision_lt (h : Decided d) {x : Nat × BranchSpec} (hx : x ∈ d.outcomes) :
    x.1 < d.size := by
  obtain ⟨n, hn, -, heq⟩ := h.decision x hx
  exact heq ▸ h.node_lt n hn

/-- The outcomes that are added are those of a decision with the next number. -/
theorem Decided.extend (h : Decided d) (new : List FlowNode) (specs : List BranchSpec)
    (hnodes : d'.graph.nodes = d.graph.nodes ++ new)
    (houtcomes : d'.outcomes = d.outcomes ++ specs.map fun o => (d.size, o))
    (hnew : ∀ m ∈ new, m.id < d.size + new.length ∧ (m.branch ≠ none → m.kind = .arm) ∧
      (m.kind = .decision → m.id = d.size ∧ SplitsInto m specs))
    (hspecs : ∀ o ∈ specs, ∃ m ∈ new, m.kind = .decision ∧ m.id = d.size) : Decided d' := by
  refine { node_lt := fun m hm => ?_, arm := fun m hm => ?_, decision := fun x hx => ?_
           splits := fun m hm hdecision => ?_ }
  · rw [size, hnodes, length_append]
    rcases mem_append.mp (hnodes ▸ hm) with hm | hm
    · exact Nat.lt_add_right _ (h.node_lt m hm)
    · exact (hnew m hm).1
  · rcases mem_append.mp (hnodes ▸ hm) with hm | hm
    · exact h.arm m hm
    · exact (hnew m hm).2.1
  · rw [hnodes]
    rw [houtcomes, mem_append, mem_map] at hx
    rcases hx with hx | ⟨o, ho, rfl⟩
    · obtain ⟨m, hm, hdecision⟩ := h.decision x hx
      exact ⟨m, mem_append_left _ hm, hdecision⟩
    · obtain ⟨m, hm, hdecision⟩ := hspecs o ho
      exact ⟨m, mem_append_right _ hm, hdecision⟩
  · rw [outcomesAt, houtcomes, filter_append, map_append]
    rcases mem_append.mp (hnodes ▸ hm) with hm | hm
    · -- The new outcomes are not those of an earlier decision.
      have hne : d.size ≠ m.id := (h.node_lt m hm).ne'
      have hnone : (specs.map fun o => (d.size, o)).filter (fun x => decide (x.1 = m.id)) = [] := by
        simp [filter_eq_nil_iff, hne]
      rw [hnone, map_nil, append_nil]
      exact h.splits m hm hdecision
    · -- The earlier outcomes are not those of the new decision.
      obtain ⟨hid, hsplits⟩ := (hnew m hm).2.2 hdecision
      have hnone : d.outcomes.filter (fun x => decide (x.1 = m.id)) = [] := by
        rw [filter_eq_nil_iff]
        intro x hx
        simpa [hid] using (h.decision_lt hx).ne
      have hall : (specs.map fun o => (d.size, o)).filter (fun x => decide (x.1 = m.id)) =
          specs.map fun o => (d.size, o) := by
        simp [filter_eq_self, hid]
      rw [hnone, hall, map_nil, nil_append, map_map]
      simpa using hsplits

theorem Decided.of_eq (h : Decided d) (hnodes : d'.graph.nodes = d.graph.nodes)
    (houtcomes : d'.outcomes = d.outcomes) : Decided d' :=
  h.extend [] [] (hnodes.trans (append_nil _).symm) (houtcomes.trans (append_nil _).symm) nofun
    nofun

/-- A node that is no decision changes no outcome. -/
theorem Decided.push (h : Decided d) {x : FlowNode} (hid : x.id = d.size)
    (hkind : x.kind ≠ .decision) (harm : x.branch ≠ none → x.kind = .arm) : Decided (d.push x) := by
  refine h.extend [x] [] rfl (append_nil _).symm (fun m hm => ?_) nofun
  obtain rfl := mem_singleton.mp hm
  exact ⟨hid ▸ Nat.lt_succ_self _, harm, fun hdecision => absurd hdecision hkind⟩

theorem nodes_link (src : Option Nat) (dst : Nat) (kind : FlowEdgeKind) (d : Draft) :
    (link src dst kind d).2.graph.nodes = d.graph.nodes := by
  cases src <;> rfl

theorem outcomes_link (src : Option Nat) (dst : Nat) (kind : FlowEdgeKind) (d : Draft) :
    (link src dst kind d).2.outcomes = d.outcomes := by
  rw [outcomes, branches_link, outcomes]

/-- An arm changes nothing of a branch but where its arm is. -/
theorem Decided.addArm (h : Decided d) (b : Branch) (kind : FlowEdgeKind) (label : Option String) :
    Decided (addArm b kind label d).2 := by
  refine (h.push (x := d.arm b) rfl nofun fun _ => rfl).of_eq rfl ?_
  show (d.branches.modify b.id ({ · with armNode := some d.size })).map _ = d.branches.map _
  refine ext_getElem? fun i => ?_
  rw [getElem?_map, getElem?_modify, getElem?_map]
  cases d.branches[i]? with
  | none => rfl
  | some b' =>
    by_cases hi : b.id = i
    · simp [hi, Branch.spec]
    · simp [hi]

theorem Numbered.outcomes_eq {u first : Nat} {specs : List BranchSpec} {bs : List Branch}
    (h : Numbered u first specs bs) :
    (bs.map fun b => (b.decisionNode, b.spec)) = specs.map fun o => (u, o) := by
  rw [← h.specs_eq, map_map]
  exact map_congr_left fun b hb => congrArg (·, b.spec) (h.fresh b hb).1

/-- A decision is added together with its branches. -/
theorem Decided.divide (h : Decided d) {n : FlowNode} {specs : List BranchSpec} {bs : List Branch}
    (current : Option Nat) (hid : n.id = d.size) (hkind : n.kind = .decision)
    (hbranch : n.branch = none) (hsplits : SplitsInto n specs)
    (hbs : Numbered d.size d.branches.length specs bs) : Decided (d.divide n current bs) := by
  refine h.extend [n] specs (nodes_link current _ _ (d.push n)) ?_ (fun m hm => ?_) fun _ _ =>
    ⟨n, mem_singleton_self n, hkind, hid⟩
  · rw [← hbs.outcomes_eq]
    exact map_append
  · obtain rfl := mem_singleton.mp hm
    exact ⟨hid ▸ Nat.lt_succ_self _, fun hsome => absurd hbranch hsome, fun _ => ⟨hid, hsplits⟩⟩

end Steps

/-! ## What a statement records -/

/-- The numbers of branches, of decisions and of jumps to labels. -/
def tally (d : Draft) : Nat × Nat × Nat :=
  (d.branches.length, d.graph.decisions.length, d.gotos.length)

mutual

/-- What drawing a statement adds to these numbers. -/
def tallyOf : Tree → Nat → Nat × Nat × Nat
  | .node l ts, id =>
    match l.kind with
    | .compound | .case | .default | .label => tallyUpTo ts.length ts (id + 1)
    | .ifElse => (2, 1, 0) + tallyUpTo 2 ts (id + 1)
    | .whileLoop | .doLoop | .forLoop => (2, 1, 0) + tallyUpTo 1 ts (id + 1)
    | .switch => ((caseLabels (switchLabelsAll ts (id + 1))).length + 1, 1, 0) +
        tallyUpTo ts.length ts (id + 1)
    | kind =>
      let n := (Tree.node l ts).ternaryCount
      (2 * n, n, if kind = .goto then 1 else 0)

/-- What drawing the first of some statements adds, up to a number of them. -/
def tallyUpTo : Nat → List Tree → Nat → Nat × Nat × Nat
  | 0, _, _ => 0
  | _ + 1, [], _ => 0
  | n + 1, t :: ts, id => tallyOf t id + tallyUpTo n ts (id + t.size)

end

/-- A construction adds to the numbers of a draft, and leaves all decisions with their outcomes.  If
`p` holds, then it adds arms beyond those of the branches that it adds. -/
structure Recorded (p : Prop) (d : Draft) (n : Nat × Nat × Nat) (arms : Nat → ℤ) (d' : Draft) :
    Prop where
  tally_eq : d'.tally = d.tally + n
  decided : Decided d → Decided d'
  excess_eq : p → d'.excess = d.excess + arms

section Recorded

variable {p q : Prop} {d d' d'' : Draft} {k m n : Nat × Nat × Nat} {a b c : Nat → ℤ}

theorem Recorded.branches_eq (h : Recorded p d n a d') :
    d'.branches.length = d.branches.length + n.1 :=
  congrArg Prod.fst h.tally_eq

/-- Less may be asked of the arms. -/
theorem Recorded.of_imp (h : Recorded p d n a d') (hq : q → p) (hb : q → b = a) :
    Recorded q d n b d' :=
  ⟨h.tally_eq, h.decided, fun hp => hb hp ▸ h.excess_eq (hq hp)⟩

theorem Recorded.refl (d : Draft) : Recorded p d 0 0 d :=
  ⟨(add_zero _).symm, id, fun _ => (add_zero _).symm⟩

/-- Constructions one after the other add what each of them adds. -/
theorem Recorded.trans (h : Recorded p d m a d') (h' : Recorded p d' n b d'') (hk : k = m + n)
    (hc : p → c = a + b) : Recorded p d k c d'' where
  tally_eq := by rw [h'.tally_eq, h.tally_eq, hk, add_assoc]
  decided hd := h'.decided (h.decided hd)
  excess_eq hp := by rw [h'.excess_eq hp, h.excess_eq hp, hc hp, add_assoc]

/-- A step that leaves nodes, outcomes and jumps alone adds nothing. -/
theorem Recorded.step (h : Recorded p d n a d') (hnodes : d''.graph.nodes = d'.graph.nodes)
    (houtcomes : d''.outcomes = d'.outcomes) (hgotos : d''.gotos = d'.gotos) :
    Recorded p d n a d'' := by
  have hlength : d''.branches.length = d'.branches.length := by
    simpa [outcomes] using congrArg length houtcomes
  refine h.trans ⟨?_, fun hd => hd.of_eq hnodes houtcomes, fun _ => ?_⟩ (add_zero n).symm
    fun _ => (add_zero a).symm
  · rw [tally, tally, decisions, decisions, hnodes, hlength, hgotos, add_zero]
  · funext i
    rw [excess, hnodes, hlength, add_zero, excess]

theorem tally_push (d : Draft) {x : FlowNode} (hkind : x.kind ≠ .decision) :
    (d.push x).tally = d.tally := by
  simp [tally, push, decisions, hkind]

theorem excess_push (d : Draft) {x : FlowNode} (hbranch : x.branch = none) :
    (d.push x).excess = d.excess := by
  funext i
  rw [excess, excess]
  show ((d.graph.nodes ++ [x]).countP _ : ℤ) - _ = _
  rw [countP_append, countP_singleton, hbranch]
  rfl

theorem Recorded.node (h : Recorded p d n a d') (x : FlowNode) (hid : x.id = d'.size)
    (hkind : x.kind ≠ .decision) (hbranch : x.branch = none) : Recorded p d n a (d'.push x) :=
  h.trans ⟨tally_push d' hkind, fun hd => hd.push hid hkind fun hsome => absurd hbranch hsome,
    fun _ => (excess_push d' hbranch).trans (add_zero _).symm⟩ (add_zero n).symm
    fun _ => (add_zero a).symm

theorem Recorded.link (h : Recorded p d n a d') {c : Option Nat} {v : Nat} {e : FlowEdgeKind} :
    Recorded p d n a (link c v e d').2 :=
  h.step (nodes_link c v e d') (outcomes_link c v e d') (gotos_link ..)

theorem tally_addArm (d : Draft) (b : Branch) (kind : FlowEdgeKind) (label : Option String) :
    (addArm b kind label d).2.tally = d.tally := by
  have hnode := tally_push d (x := d.arm b) nofun
  have hrest := congrArg Prod.snd hnode
  exact Prod.ext (length_branches_addArm d b kind label) hrest

/-- An arm is one more for the branch that it belongs to. -/
theorem excess_addArm (d : Draft) (b : Branch) (kind : FlowEdgeKind) (label : Option String) :
    (addArm b kind label d).2.excess = d.excess + branchArms [b] := by
  funext i
  rw [excess, length_branches_addArm]
  show ((d.graph.nodes ++ [d.arm b]).countP _ : ℤ) - _ = _
  simp [excess, branchArms, arm, countP_append, countP_singleton, count_singleton]
  ring

theorem Recorded.arm (h : Recorded p d n a d') (b : Branch) (kind : FlowEdgeKind)
    (label : Option String) (hc : p → c = a + branchArms [b]) :
    Recorded p d n c (addArm b kind label d').2 :=
  h.trans ⟨tally_addArm d' b kind label, fun hd => hd.addArm b kind label,
    fun _ => excess_addArm d' b kind label⟩ (add_zero n).symm hc

/-- A decision adds its branches, and their arms are still to be drawn. -/
theorem recorded_divide (d : Draft) {x : FlowNode} {specs : List BranchSpec} {bs : List Branch}
    (current : Option Nat) (hid : x.id = d.size) (hkind : x.kind = .decision)
    (hbranch : x.branch = none) (hsplits : SplitsInto x specs)
    (hbs : Numbered d.size d.branches.length specs bs) :
    Recorded p d (specs.length, 1, 0) (-branchArms bs) (d.divide x current bs) := by
  have hnodes : (d.divide x current bs).graph.nodes = d.graph.nodes ++ [x] :=
    nodes_link current _ _ (d.push x)
  have hlength : (d.divide x current bs).branches.length = d.branches.length + specs.length := by
    rw [← hbs.specs_eq, length_map]
    exact length_append
  refine ⟨?_, fun hd => hd.divide current hid hkind hbranch hsplits hbs, fun _ => ?_⟩
  · have hgotos : (d.divide x current bs).gotos = d.gotos := gotos_link (d.push x) ..
    rw [tally, decisions, hnodes, hlength, hgotos]
    simp [tally, decisions, hkind]
  · funext i
    have hcount : branchArms bs i
        = if d.branches.length ≤ i ∧ i < d.branches.length + specs.length then 1 else 0 := by
      rw [branchArms, hbs.ids_eq, (nodup_range' ..).count]
      simp [mem_range'_1]
    rw [Pi.add_apply, Pi.neg_apply, hcount, excess, excess, hnodes, hlength, countP_append,
      countP_singleton, hbranch, if_neg (by simp), add_zero]
    split_ifs <;> omega

/-- A two-way decision is drawn with both of its arms. -/
theorem Recorded.twoWay (h : Recorded p d n a d') (l : Label) (current : Option Nat)
    (thenTree elseTree : Option Tree) (loopExit : Option Nat) (hkind : l.kind ≠ .switch) :
    Recorded p d (n + (2, 1, 0)) a (addTwoWay l current thenTree elseTree loopExit d').2 := by
  obtain ⟨t, f, hbs, heq⟩ := exists_addTwoWay d' l current thenTree elseTree loopExit
  have hdivided := recorded_divide (p := p) d' current
    (x := ⟨d'.size, .decision, some l.kind, l.line, .str (guardOf l), none, loopExit⟩)
    rfl rfl rfl (.twoWay rfl hkind) hbs
  rw [heq]
  refine h.trans ((hdivided.arm t .branchTrue none fun _ => rfl).arm f .branchFalse none (c := 0)
    fun _ => ?_) rfl fun _ => (add_zero a).symm
  funext i
  simp [branchArms, count_cons]

end Recorded

/-! ## Statements -/

open Branchwise.Tree

section Statements

variable {p q : Prop} {l : Label} {ts : List Tree} {id : Nat} {n : Nat × Nat × Nat}
  {labels : List (Nat × Label × Tree)}

theorem recorded_addTernary (e : Tree) (current : Option Nat) (d : Draft)
    (he : e.label.kind ≠ .switch) : Recorded p d (2, 1, 0) 0 (addTernary current e d).2 :=
  (((Recorded.refl d).twoWay _ _ _ _ _ he).node _ (by rfl) (by nofun) (by rfl)).link.link

/-- Every conditional expression adds one decision with two branches. -/
theorem recorded_addTernaries {es : List Tree} (current : Option Nat) (d : Draft)
    (hes : ∀ e ∈ es, e.label.kind ≠ .switch) :
    Recorded p d (2 * es.length, es.length, 0) 0 (addTernaries current es d).2 := by
  induction es generalizing current d with
  | nil => exact Recorded.refl d
  | cons e es ih =>
    rw [forall_mem_cons] at hes
    rw [addTernaries_cons]
    refine (recorded_addTernary e current d hes.1).trans (ih _ _ hes.2) ?_ fun _ => rfl
    simp [Nat.mul_add, Nat.add_comm]

theorem kind_ne_switch_of_mem_collect (t : Tree) :
    ∀ e ∈ t.collect .ternary, e.label.kind ≠ .switch := by
  intro e he
  have hternary : e.kind = .ternary := of_decide_eq_true (mem_filter.mp he).2
  rw [show e.label.kind = .ternary from hternary]
  decide

/-- A plain statement adds its conditional expressions, and a jump to a label the jump. -/
theorem recorded_addLeaf (t : Tree) (current : Option Nat) (targets : JumpTargets) (d : Draft) :
    Recorded p d (2 * t.ternaryCount, t.ternaryCount, if t.kind = .goto then 1 else 0) 0
      (addLeaf t current targets d).2 := by
  have hternaries := recorded_addTernaries (p := p) current d (kind_ne_switch_of_mem_collect t)
  rw [addLeaf_eq]
  generalize addTernaries current (t.collect .ternary) d = r at hternaries
  have hnode := (hternaries.node (r.2.stated .statement t.label (shownText t.label)) rfl nofun
    rfl).link (c := r.1) (v := r.2.size) (e := .fallThrough)
  unfold addLeafNode
  cases hk : t.kind with
  | «return» | «break» | «continue» => exact hnode.step rfl rfl rfl
  | goto =>
    -- The jump is noted, and its edge drawn at the end.
    have htally (d : Draft) : (addGoto r.2.size (labelName t.label) d).2.tally =
        d.tally + (0, 0, 1) :=
      Prod.ext rfl (Prod.ext rfl length_append)
    exact hnode.trans ⟨htally _, fun hd => hd.of_eq rfl rfl, fun _ => (add_zero _).symm⟩ rfl
      fun _ => rfl
  | compound | ifElse | whileLoop | doLoop | forLoop | switch | case | default | label | call
  | declaration | expression | ternary => exact hnode

theorem recorded_addLabelNode (l : Label) (text : Json) (current : Option Nat) (d : Draft) :
    Recorded p d 0 0 (addLabelNode l text current d) :=
  ((Recorded.refl d).node _ (by rfl) (by nofun) (by rfl)).link

/-- A label of a switch adds the arm of its branch, if it has one. -/
theorem recorded_addSwitchLabel (l : Label) (id : Nat) (t : Tree) (current : Option Nat)
    (switch : Option SwitchContext) (d : Draft) :
    Recorded p d 0 (labelArms switch [(id, l, t)]) (addSwitchLabel l id current switch d).2 := by
  obtain ⟨text, kind, label, heq⟩ := exists_addSwitchLabel l id current switch d
  rw [heq, labelArms_singleton]
  have hlabel := recorded_addLabelNode (p := p) l text current d
  cases switch.bind (armOf · l id) with
  | none => exact hlabel
  | some b => exact (hlabel.arm b kind label fun _ => (zero_add _).symm).link

/-- What a construction records, where the labels in it belong to the switch around it. -/
def Records (p : Prop) (n : Nat × Nat × Nat) (labels : List (Nat × Label × Tree))
    (draw : Option Nat → JumpTargets → Drawing (Option Nat)) : Prop :=
  ∀ (current : Option Nat) (targets : JumpTargets) (d : Draft),
    Recorded p d n (labelArms targets.switch labels) (draw current targets d).2

theorem Records.of_imp {draw : Option Nat → JumpTargets → Drawing (Option Nat)}
    (h : Records p n labels draw) (hq : q → p) : Records q n labels draw :=
  fun current targets d => (h current targets d).of_imp hq fun _ => rfl

/-- A loop adds the decision of its guard to what its body adds. -/
theorem records_loop (hkind : l.kind = .whileLoop ∨ l.kind = .doLoop ∨ l.kind = .forLoop)
    (hbody : Records p n labels (addFirst ts (id + 1))) :
    Records p ((2, 1, 0) + n) labels (addTree (.node l ts) id) := by
  have hne : l.kind ≠ .switch := by rcases hkind with hk | hk | hk <;> rw [hk] <;> decide
  intro current targets d
  have hexit := (Recorded.refl (p := p) d).node (d.point .loopExit l.line) rfl nofun rfl
  have htest := hexit.twoWay l current ts[0]? none (some d.size) hne
  have hinner {k m : Nat × Nat × Nat} {d' : Draft} (h : Recorded p d m 0 d') (hm : k = m + n)
      (c b e : Option Nat) : Recorded p d k (labelArms targets.switch labels)
        (addFirst ts (id + 1) c ⟨b, e, targets.switch⟩ d').2 :=
    h.trans (hbody c ⟨b, e, targets.switch⟩ d') hm fun _ => (zero_add _).symm
  rcases hkind with hk | hk | hk
  -- The loops differ in the nodes around the body: a join before the test, or a node for the step.
  · rw [addTree_whileLoop hk]
    exact (hinner htest rfl _ _ _).link.link
  · rw [addTree_doLoop hk]
    have hentry := (Recorded.refl (p := p) d).node
      (d.loopEntry l) rfl nofun rfl
    have hlinked := (hentry.node (point _ .loopExit l.line) rfl nofun rfl).link
      (c := current) (v := d.size) (e := .fallThrough)
    have htop := hlinked.node (point _ .join l.line) rfl nofun rfl
    rw [add_comm]
    exact ((hinner htop (zero_add n).symm _ _ _).link.twoWay _ _ _ _ _ hne).link.link
  · rw [addTree_forLoop hk]
    exact (hinner (htest.node _ (by rfl) (by nofun) (by rfl)) rfl _ _ _).link.link.link

/-- A switch adds a branch for each case label and the default.  The labels in its body draw the
arms, and if none is a default then the switch draws that arm itself. -/
theorem records_switch (hk : l.kind = .switch)
    (hone : p → (switchLabelsAll ts 0).countP (fun x => x.2.1.kind = .default) ≤ 1)
    (hbody : Records p n (switchLabelsAll ts (id + 1)) (addSequence ts (id + 1))) :
    Records p (((caseLabels (switchLabelsAll ts (id + 1))).length + 1, 1, 0) + n) []
      (addTree (.node l ts) id) := by
  intro current targets d
  obtain ⟨ctx, hctx, heq⟩ := exists_addTree_switch hk ts id current targets d
  rw [heq]
  have hkeys := (pairwise_lt_range' ..).sublist (sublist_switchLabelsAll ts (id + 1))
  have hcount := congrArg (countP fun x => x.1.kind = .default)
    (map_snd_switchLabelsAll ts (id + 1) 0)
  rw [countP_map, countP_map] at hcount
  obtain ⟨cases, line, hbs⟩ := hctx.exists_specs
  have hswitch :=
    (recorded_divide (p := p) d current (x := d.stated .decision l (.str (subjectOf l)))
      rfl rfl rfl (.switch (congrArg some hk) rfl) hbs).node (point _ .switchExit l.line)
      rfl nofun rfl
  have hlength : (switchSpecs l cases line).length
      = (caseLabels (switchLabelsAll ts (id + 1))).length + 1 := by
    rw [← hbs.specs_eq, length_map, hctx.length_eq]
  rw [hlength] at hswitch
  have harms (hp : p) := hctx.arms_eq hkeys (hcount.trans_le (hone hp))
  dsimp only [ifEntered]
  split
  · rename_i hall
    -- No label is a default: the arms that are missing are that of the default, drawn here.
    refine ((hswitch.trans (hbody _ _ _) rfl fun _ => rfl).link.arm _ _ _ fun hp => ?_).link
    rw [← harms hp, defaultArm, if_pos hall, neg_add_rev, neg_add_cancel_right]
    exact (neg_add_cancel _).symm
  · rename_i hall
    -- The labels in the body have drawn all arms.
    refine (hswitch.trans (hbody _ _ _) rfl fun hp => ?_).link
    rw [← harms hp, defaultArm, if_neg hall, add_zero]
    exact (neg_add_cancel _).symm

/-- A case label adds an arm before what it labels. -/
theorem records_caseOrDefault (hk : l.kind = .case ∨ l.kind = .default)
    (hbody : Records p n (switchLabelsAll ts (id + 1)) (addSequence ts (id + 1))) :
    Records p n (switchLabels (.node l ts) id) (addTree (.node l ts) id) := by
  intro current targets d
  have hlabels : switchLabels (.node l ts) id
      = [(id, l, .node l ts)] ++ switchLabelsAll ts (id + 1) := by
    rcases hk with hk | hk <;> simp [switchLabels, hk]
  rw [addTree_caseOrDefault hk, hlabels]
  exact (recorded_addSwitchLabel l id _ current targets.switch d).trans (hbody _ _ _)
    (zero_add n).symm fun _ => labelArms_append _ _ _

theorem records_label (hk : l.kind = .label)
    (hbody : Records p n labels (addSequence ts (id + 1))) :
    Records p n labels (addTree (.node l ts) id) := by
  intro current targets d
  rw [addTree_label hk]
  have hlabel := recorded_addLabelNode (p := p) l (.str (l.name.plain ++ ":")) current d
  have hnamed : Recorded p d 0 0 (addLabel (labelName l) d.size _).2 :=
    hlabel.step rfl rfl rfl
  exact hnamed.trans (hbody _ _ _) (zero_add n).symm fun _ => (zero_add _).symm

mutual

/-- **Drawing a statement records its decisions.**  By recursion over the tree, one case for each
kind of statement. -/
theorem records_addTree (t : Tree) (id : Nat) :
    Records (∀ n ∈ t.walk, Regular n) (tallyOf t id) (switchLabels t id) (addTree t id) := by
  obtain ⟨l, ts⟩ := t
  have hbody := (records_addSequence ts (id + 1)).of_imp fun h => (regular_node (l := l) h).2.2
  match hk : l.kind with
  | .compound =>
    intro current targets d
    rw [addTree_compound _ _ _ _ _ _ hk, tallyOf, hk, switchLabels_node (by simp [hk])]
    exact hbody current targets d
  | .ifElse =>
    intro current targets d
    rw [addTree_ifElse hk, tallyOf, hk, switchLabels_node (by simp [hk])]
    exact ((Recorded.refl d).node (d.point .join l.line) rfl nofun rfl).trans
      ((recorded_addChain ts l (id + 1) d.size current targets _ (by rw [hk]; decide)).of_imp
        (fun h => regular_parts h (by rw [hk]; rfl)) fun _ => rfl)
      (zero_add _).symm fun _ => (zero_add _).symm
  | .whileLoop | .doLoop | .forLoop =>
    rw [switchLabels_node (by simp [hk])]
    simpa only [tallyOf, hk] using records_loop (by simp [hk])
      ((records_addFirst ts (id + 1)).of_imp fun h => regular_parts h (by rw [hk]; rfl))
  | .switch =>
    have hnone : switchLabels (.node l ts) id = [] := by simp [switchLabels, hk]
    rw [hnone]
    simpa only [tallyOf, hk] using records_switch hk (fun h => (regular_node h).2.1 hk) hbody
  | .case => simpa only [tallyOf, hk] using records_caseOrDefault (.inl hk) hbody
  | .default => simpa only [tallyOf, hk] using records_caseOrDefault (.inr hk) hbody
  | .label =>
    rw [switchLabels_node (by simp [hk])]
    simpa only [tallyOf, hk] using records_label hk hbody
  | .break | .continue | .return | .goto | .call | .declaration | .expression | .ternary =>
    intro current targets d
    -- A regular leaf has no labels in it.
    have hleaf := recorded_addLeaf (p := ∀ n ∈ (Tree.node l ts).walk, Regular n) (.node l ts)
      current targets d
    rw [show (Tree.node l ts).kind = _ from hk] at hleaf
    simp only [tallyOf, addTree, hk]
    refine hleaf.of_imp (fun h => h) fun h => ?_
    have hfits := (regular_node h).1
    rw [hk] at hfits
    rw [(leaf_of_fits id (by rw [hk]; decide) hfits).2]
    rfl

theorem records_addSequence (ts : List Tree) (id : Nat) :
    Records (∀ n ∈ ts.flatMap walk, Regular n) (tallyUpTo ts.length ts id) (switchLabelsAll ts id)
      (addSequence ts id) := by
  intro current targets d
  match ts with
  | [] => exact Recorded.refl d
  | t :: ts =>
    rw [addSequence_cons, flatMap_cons, forall_mem_append]
    exact ((records_addTree t id current targets d).of_imp And.left fun _ => rfl).trans
      ((records_addSequence ts (id + t.size) _ targets _).of_imp And.right fun _ => rfl) rfl
      fun _ => labelArms_append _ _ _

theorem records_addFirst (ts : List Tree) (id : Nat) :
    Records (ts.length ≤ 1 ∧ ∀ n ∈ ts.flatMap walk, Regular n) (tallyUpTo 1 ts id)
      (switchLabelsAll ts id) (addFirst ts id) := by
  intro current targets d
  match ts with
  | [] => exact Recorded.refl d
  | t :: ts =>
    show Recorded _ d (tallyOf t id + tallyUpTo 0 _ _) _ _
    rw [tallyUpTo, add_zero, flatMap_cons, forall_mem_append]
    refine (records_addTree t id current targets d).of_imp (fun h => h.2.1) fun h => ?_
    obtain rfl : ts = [] := by simpa using h.1
    exact congrArg _ (append_nil _)

/-- A chain of alternatives is drawn without a node for each `if` behind an `else`. -/
theorem recorded_addChain (ts : List Tree) (l : Label) (id join : Nat) (current : Option Nat)
    (targets : JumpTargets) (d : Draft) (hkind : l.kind ≠ .switch) :
    Recorded (ts.length ≤ 2 ∧ ∀ n ∈ ts.flatMap walk, Regular n) d ((2, 1, 0) + tallyUpTo 2 ts id)
      (labelArms targets.switch (switchLabelsAll ts id))
      (addChain join l ts id current targets d).2 := by
  have htest {p : Prop} (thenTree elseTree : Option Tree) :=
    (Recorded.refl (p := p) d).twoWay l current thenTree elseTree none hkind
  simp only [zero_add] at htest
  match ts with
  | [] =>
    rw [addChain_nil]
    exact (htest none none).link.link
  | [t] =>
    rw [addChain_one]
    refine ((htest (some t) none).trans ((records_addTree t id _ targets _).of_imp (fun h => ?_)
      fun _ => rfl) rfl fun _ => ?_).link.link
    · simpa using h.2
    · rw [switchLabelsAll, switchLabelsAll, append_nil, zero_add]
  | t :: .node l' ts' :: ts =>
    have htotal : tallyUpTo 2 (t :: .node l' ts' :: ts) id
        = tallyOf t id + tallyOf (.node l' ts') (id + t.size) := by
      simp only [tallyUpTo, add_zero]
    have hparts : (t :: .node l' ts' :: ts).length ≤ 2 ∧
        (∀ n ∈ (t :: .node l' ts' :: ts).flatMap walk, Regular n) →
        (∀ n ∈ t.walk, Regular n) ∧ (∀ n ∈ (Tree.node l' ts').walk, Regular n) ∧
        labelArms targets.switch (switchLabelsAll (t :: .node l' ts' :: ts) id)
          = labelArms targets.switch (switchLabels t id)
            + labelArms targets.switch (switchLabels (.node l' ts') (id + t.size)) := by
      rintro ⟨hlen, h⟩
      obtain rfl : ts = [] := by simpa using hlen
      rw [flatMap_cons, flatMap_cons, forall_mem_append, forall_mem_append] at h
      refine ⟨h.1, h.2.1, ?_⟩
      simp only [switchLabelsAll, labelArms_append, append_nil]
    have hthen (c : Option Nat) := (htest (some t) (some (.node l' ts'))).trans
      ((records_addTree t id c targets _).of_imp (fun h => (hparts h).1) fun _ => rfl) rfl
      fun _ => (zero_add _).symm
    rw [htotal, ← add_assoc]
    -- Behind the `else` the chain goes on, or a statement ends it.
    by_cases hk : l'.kind = .ifElse
    · rw [addChain_chain hk, tallyOf, hk]
      refine (hthen _).link.trans ((recorded_addChain ts' l' _ join _ targets _
        (by rw [hk]; decide)).of_imp (fun h => regular_parts (hparts h).2.1 (by rw [hk]; rfl))
        fun _ => rfl) rfl fun h => ?_
      rw [(hparts h).2.2, switchLabels_node (by simp [hk])]
    · rw [addChain_else hk]
      exact ((hthen _).link.trans ((records_addTree (.node l' ts') _ _ targets _).of_imp
        (fun h => (hparts h).2.1) fun _ => rfl) rfl fun h => (hparts h).2.2).link

end

end Statements

/-! ## Whole functions -/

/-- The edges of the jumps to labels add no node and no branch. -/
theorem recorded_closeGotos {p : Prop} (d : Draft) : Recorded p d 0 0 (closeGotos d).2 := by
  show Recorded p d 0 0 ((forM d.gotos fun x =>
    Draft.addEdge x.1 ((d.labels.get? x.2).getD exit) .gotoJump none : Drawing Unit) d).2
  generalize d.gotos = gotos
  induction gotos generalizing d with
  | nil => exact Recorded.refl d
  | cons x gotos ih =>
    have hedge (src dst : Nat) (kind : FlowEdgeKind) :
        Recorded p d 0 0 (addEdge src dst kind none d).2 :=
      (Recorded.refl d).step rfl rfl rfl
    exact (hedge _ _ _).trans (ih _) (add_zero 0).symm fun _ => (add_zero 0).symm

theorem decided_empty (function : Json) : Decided (empty function) where
  node_lt := by
    intro n hn
    rcases mem_pair.mp hn with rfl | rfl
    · exact Nat.zero_lt_two
    · exact Nat.one_lt_two
  arm := by
    intro n hn hsome
    rcases mem_pair.mp hn with rfl | rfl <;> exact absurd rfl hsome
  decision := nofun
  splits := by
    intro n hn hkind
    rcases mem_pair.mp hn with rfl | rfl <;> cases hkind

/-- A whole function records what its body does, and no arm too many or too few. -/
theorem recorded_drawn (function : Json) (body : Tree) :
    Recorded (∀ n ∈ body.walk, Regular n) (empty function) (tallyOf body 0) 0
      (drawn function body) := by
  have hbody : Recorded (∀ n ∈ body.walk, Regular n) (empty function) (tallyOf body 0) 0
      (addBody body (empty function)).2 := by
    simp only [addBody, bind_apply]
    refine (records_addTree body 0 _ _ _).link.trans (recorded_closeGotos _) (add_zero _).symm
      fun _ => ?_
    funext i
    simp [labelArms, armId]
  refine hbody.step rfl ?_ rfl
  simp only [drawn, outcomes, map_map]
  rfl

/-- **The table of branches holds the outcomes of every decision.** -/
theorem decided_drawn (function : Json) (body : Tree) : Decided (drawn function body) :=
  (recorded_drawn function body).decided (decided_empty function)

/-! ## Numbers of labels and branches

The labels of a switch are found by the numbers of their nodes in the body, and its branches are
numbered in the order of its case labels.  For a structured body both agree with the counts of the
body: a statement adds as many branches as it counts, and the case labels in a part of the body of a
switch are as many as it counts. -/

/-! ### Labels of a switch -/

theorem switchLabels_of_isPlain {t : Tree} (h : t.isPlain) (id : Nat) :
    switchLabels t id = [] := by
  refine switchLabels_eq_nil t id fun n hn => ?_
  have := all_eq_true.mp h n hn
  simp only [Bool.and_eq_true, decide_eq_true_eq] at this
  exact this.1

/-- The labels of a part of a body are as many as it counts, and none outside of a switch. -/
structure LabelsCounted (inSwitch : Bool) (labels : List (Nat × Label × Tree)) (cases : Nat)
    (hasDefault : Bool) : Prop where
  length_eq : (caseLabels labels).length = cases
  all_eq : (labels.all fun x => x.2.1.kind ≠ .default) = !hasDefault
  eq_nil : inSwitch = false → labels = []

theorem LabelsCounted.nil (inSwitch : Bool) : LabelsCounted inSwitch [] 0 false :=
  ⟨rfl, rfl, fun _ => rfl⟩

mutual

/-- The labels of a switch in a structured statement are those that it counts. -/
theorem labelsCounted_switchLabels (t : Tree) (id : Nat) {inSwitch : Bool}
    (h : t.isStructured inSwitch) :
    LabelsCounted inSwitch (switchLabels t id) t.caseCount t.hasDefault := by
  obtain ⟨l, ts⟩ := t
  match hk : l.kind with
  | .compound =>
    simp only [isStructured, hk] at h
    simp only [caseCount, hasDefault, hk]
    rw [switchLabels_node (by simp [hk])]
    exact labelsCounted_switchLabelsAll ts (id + 1) h
  | .case | .default =>
    simp only [isStructured, hk, Bool.and_eq_true] at h
    have hts := labelsCounted_switchLabelsAll ts (id + 1) h.2
    simp only [caseCount, hasDefault, hk]
    refine ⟨?_, ?_, fun hnot => absurd (h.1.symm.trans hnot) nofun⟩
    · simp [caseLabels_switchLabels l ts id (by simp [hk]), hk, hts.length_eq, Nat.add_comm]
    · simp [switchLabels, hk, ← hts.all_eq]
  | .ifElse | .whileLoop | .doLoop | .forLoop =>
    simp only [isStructured, hk, Bool.and_eq_true] at h
    -- No label of a switch stands in a statement inside of it that is no block.
    rw [switchLabels_node (by simp [hk]),
      (labelsCounted_switchLabelsAll ts (id + 1) h.2).eq_nil rfl]
    simp only [caseCount, hasDefault, hk]
    exact LabelsCounted.nil inSwitch
  | .switch =>
    have hnil : switchLabels (.node l ts) id = [] := by simp [switchLabels, hk]
    rw [hnil]
    simp only [caseCount, hasDefault, hk]
    exact LabelsCounted.nil inSwitch
  | .goto | .label => simp [isStructured, hk] at h
  | .break | .continue | .return | .call | .declaration | .expression | .ternary =>
    have hp : (Tree.node l ts).isPlain := by simpa [isStructured, hk] using h
    rw [switchLabels_of_isPlain hp]
    simp only [caseCount, hasDefault, hk]
    exact LabelsCounted.nil inSwitch

theorem labelsCounted_switchLabelsAll (ts : List Tree) (id : Nat) {inSwitch : Bool}
    (h : areStructured ts inSwitch) :
    LabelsCounted inSwitch (switchLabelsAll ts id) (caseCountAll ts) (hasDefaultAll ts) := by
  match ts with
  | [] => exact LabelsCounted.nil inSwitch
  | t :: ts =>
    simp only [areStructured, Bool.and_eq_true] at h
    have ht := labelsCounted_switchLabels t id h.1
    have hts := labelsCounted_switchLabelsAll ts (id + t.size) h.2
    rw [switchLabelsAll, caseCountAll, hasDefaultAll]
    refine ⟨?_, ?_, fun hnot => by rw [ht.eq_nil hnot, hts.eq_nil hnot, append_nil]⟩
    · rw [caseLabels_append, length_append, ht.length_eq, hts.length_eq]
    · rw [all_append, ht.all_eq, hts.all_eq, Bool.not_or]

end

/-! ### Branches of a statement -/

theorem addFirst_eq_of_length_le {ts : List Tree} (h : ts.length ≤ 1) (id : Nat)
    (current : Option Nat) (targets : JumpTargets) :
    addFirst ts id current targets = addSequence ts id current targets := by
  rw [addFirst_eq_addSequence, take_of_length_le h]

mutual

/-- A structured statement adds as many branches as it counts, and no jump to a label. -/
theorem exists_tallyOf_eq (t : Tree) (id : Nat) {inSwitch : Bool}
    (h : t.isStructured inSwitch) : ∃ n, tallyOf t id = (t.branchCount, n, 0) := by
  obtain ⟨l, ts⟩ := t
  match hk : l.kind with
  | .compound =>
    simp only [isStructured, hk] at h
    simp only [tallyOf, branchCount, hk]
    exact exists_tallyUpTo_eq ts (id + 1) le_rfl h
  | .case | .default =>
    simp only [isStructured, hk, Bool.and_eq_true] at h
    simp only [tallyOf, branchCount, hk]
    exact exists_tallyUpTo_eq ts (id + 1) le_rfl h.2
  | .ifElse | .whileLoop | .doLoop | .forLoop =>
    simp only [isStructured, hk, Bool.and_eq_true, decide_eq_true_eq] at h
    obtain ⟨n, hn⟩ := exists_tallyUpTo_eq ts (id + 1) h.1 h.2
    simp only [tallyOf, branchCount, hk, hn]
    exact ⟨1 + n, rfl⟩
  | .switch =>
    simp only [isStructured, hk] at h
    obtain ⟨n, hn⟩ := exists_tallyUpTo_eq ts (id + 1) le_rfl h
    simp only [tallyOf, branchCount, hk, hn,
      (labelsCounted_switchLabelsAll ts (id + 1) h).length_eq]
    exact ⟨1 + n, rfl⟩
  | .goto | .label => simp [isStructured, hk] at h
  | .break | .continue | .return | .call | .declaration | .expression | .ternary =>
    simp only [tallyOf, branchCount, hk]
    exact ⟨_, rfl⟩

theorem exists_tallyUpTo_eq (ts : List Tree) (id : Nat) {k : Nat} (hk : ts.length ≤ k)
    {inSwitch : Bool} (h : areStructured ts inSwitch) :
    ∃ n, tallyUpTo k ts id = (branchCountAll ts, n, 0) := by
  match ts, k with
  | [], 0 => exact ⟨0, rfl⟩
  | [], _ + 1 => exact ⟨0, rfl⟩
  | t :: ts, k + 1 =>
    simp only [areStructured, Bool.and_eq_true] at h
    obtain ⟨m, hm⟩ := exists_tallyOf_eq t id h.1
    obtain ⟨n, hn⟩ := exists_tallyUpTo_eq ts (id + t.size) (Nat.le_of_succ_le_succ hk) h.2
    rw [tallyUpTo, hm, hn]
    exact ⟨m + n, rfl⟩

end

variable {t : Tree} {ts : List Tree} {inSwitch : Bool} (id : Nat) (current : Option Nat)
  (targets : JumpTargets) (d : Draft)

/-- So the branches that drawing it adds can be read off the statement. -/
theorem length_branches_addTree (h : t.isStructured inSwitch) :
    (addTree t id current targets d).2.branches.length = d.branches.length + t.branchCount := by
  obtain ⟨n, hn⟩ := exists_tallyOf_eq t id h
  rw [(records_addTree t id current targets d).branches_eq, hn]

theorem length_branches_addSequence (h : areStructured ts inSwitch) :
    (addSequence ts id current targets d).2.branches.length
      = d.branches.length + branchCountAll ts := by
  obtain ⟨n, hn⟩ := exists_tallyUpTo_eq ts id le_rfl h
  rw [(records_addSequence ts id current targets d).branches_eq, hn]

theorem length_branches_addTernary (e : Tree) :
    (addTernary current e d).2.branches.length = d.branches.length + 2 := by
  have hf := forked_addTwoWay d e.label current e.children[0]? e.children[1]? none
  simp only [addTernary, branches_link, branches_push, hf.branches_eq]

end Draft

end Branchwise
