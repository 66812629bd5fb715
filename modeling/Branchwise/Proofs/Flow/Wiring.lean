import Branchwise.Proofs.Data.Table
import Branchwise.Proofs.Flow.Steps

/-!
# How a flow graph is wired

An arm is entered from its decision only, and the entry of a loop that tests its guard last only
from where control was and from the arm that repeats it.  `Shaped` collects what holds of the nodes,
edges and branches of a draft, and `Wired` adds what a scope promises.  Each step of a construction
keeps it, so every statement tree gives such a graph.
-/

namespace Branchwise

open List Draft

namespace FlowGraph

variable (g : FlowGraph)

/-- A node is entered only from where it was entered when it was drawn. -/
def Sealed (u : Nat) : Prop := g.armAt u ≠ none ∨ g.kindAt u = some .loopEntry

/-- A loop is left for a node: by an arm of its first node, or, if that is its entry, by an arm of
the test whose other arm leads back to the entry. -/
inductive Closes (h e : Nat) : Prop
  | first (f : Nat) (test : f ∈ g.successors h) (leave : e ∈ g.successors f)
  | last (test t f : Nat) (isEntry : g.kindAt h = some .loopEntry) (le : h ≤ t)
      (back : h ∈ g.successors t) (isArm : g.armAt t ≠ none) (arm : t ∈ g.successors test)
      (other : f ∈ g.successors test) (leave : e ∈ g.successors f)

end FlowGraph

namespace Draft

open FlowGraph

/-- Jumps may lead to a node: it is drawn, and nothing about it says where it is entered from. -/
def IsTarget (d : Draft) (v : Nat) : Prop := v < d.size ∧ v ≠ entry ∧ ¬d.graph.Sealed v

/-- A loop is left for a node that jumps may lead to. -/
structure ClosedLoop (d : Draft) (h e : Nat) : Prop where
  exit_target : d.IsTarget e
  closes : d.graph.Closes h e

/-- Nothing leaves a node, and edges from it are still to come. -/
structure Loose (d : Draft) (u : Nat) : Prop where
  lt : u < d.size
  ne_exit : u ≠ exit
  isOpen : d.Open u
  not_decision : d.graph.kindAt u ≠ some .decision

/-- Control may go on from a node: no jump to a label starts there. -/
structure Flows (d : Draft) (u : Nat) : Prop extends Loose d u where
  not_goto : ∀ x ∈ d.gotos, x.1 ≠ u

/-- The nodes, edges and branches of a draft fit together. -/
structure Shaped (d : Draft) : Prop where
  ends : ∀ u < 2, d.graph.node? u = (FlowGraph.empty .null).node? u
  node_id : ∀ u n, d.graph.node? u = some n → n.id = u
  branch_id : ∀ (i : Nat) (b : Branch), d.branches[i]? = some b → b.id = i
  edge_ends : ∀ u v, d.Edge u v → (u < d.size ∧ u ≠ exit) ∧ v < d.size ∧ v ≠ entry
  edges_nodup : (d.graph.edges.map fun e => (e.src, e.dst)).Nodup
  decision_out : ∀ u v, d.Edge u v → d.graph.kindAt u = some .decision → d.graph.armAt v ≠ none
  arm_entered : ∀ v i, d.graph.armAt v = some i →
    ∃ b : Branch, d.branches[i]? = some b ∧ b.armNode ≠ none ∧ ∀ u, d.Edge u v ↔ u = b.decisionNode
  armAt_of : ∀ (i : Nat) (b : Branch) v, d.branches[i]? = some b → b.armNode = some v →
    d.graph.armAt v = some i
  loop_entered : ∀ h, d.graph.kindAt h = some .loopEntry → ∀ u w, d.Edge u h → d.Edge w h →
    (u < h ↔ w < h) → u = w

/-- A branch is in the table, and its decision is drawn. -/
structure Knows (d : Draft) (b : Branch) : Prop where
  decision : d.graph.kindAt b.decisionNode = some .decision
  exists_branch : ∃ b' : Branch, d.branches[b.id]? = some b' ∧ b'.decisionNode = b.decisionNode

/-- What a scope speaks of is in the draft as it says.  The entry of a loop that is not closed was
entered only from where control was. -/
structure Wired (s : Scope) (d : Draft) : Prop extends Shaped d where
  target : ∀ v, s.targets v → d.IsTarget v
  flows : ∀ u, s.free u → d.Flows u
  known : ∀ b, s.known b → d.Knows b
  pending_entered : ∀ x u, s.pending x → d.graph.kindAt x = some .loopEntry → d.Edge u x → u < x
  closed : ∀ x e, d.graph.loopExitAt x = some e → s.pending x ∨ d.ClosedLoop x e
  label_target : ∀ v ∈ d.labels.values, d.IsTarget v
  goto_loose : ∀ x ∈ d.gotos, d.Loose x.1
  gotos_nodup : (d.gotos.map Prod.fst).Nodup

variable {s s' : Scope} {d d' : Draft} {σ : Nat → Prop} {u v x e : Nat} {n : FlowNode} {b : Branch}

/-! ## Nodes of later drafts -/

section Congr

variable (h : d'.graph.node? u = d.graph.node? u)
include h

theorem armAt_congr : d'.graph.armAt u = d.graph.armAt u := by
  rw [armAt, armAt, h]

theorem kindAt_congr : d'.graph.kindAt u = d.graph.kindAt u := by
  rw [kindAt, kindAt, h]

theorem sealed_congr : d'.graph.Sealed u ↔ d.graph.Sealed u := by
  rw [Sealed, Sealed, armAt_congr h, kindAt_congr h]

end Congr

theorem lt_of_node? (h : d.graph.node? u = some n) : u < d.size :=
  (List.getElem?_eq_some_iff.mp h).1

/-- Only a node that is drawn is an arm. -/
theorem lt_of_armAt (h : d.graph.armAt u ≠ none) : u < d.size := by
  obtain ⟨i, hi⟩ := Option.ne_none_iff_exists'.mp h
  obtain ⟨n, hn, -⟩ := Option.bind_eq_some_iff.mp hi
  exact lt_of_node? hn

theorem lt_of_kindAt {k : FlowNodeKind} (h : d.graph.kindAt u = some k) : u < d.size := by
  obtain ⟨n, hn, -⟩ := Option.map_eq_some_iff.mp h
  exact lt_of_node? hn

theorem lt_of_loopExitAt (h : d.graph.loopExitAt u = some e) : u < d.size := by
  obtain ⟨n, hn, -⟩ := Option.bind_eq_some_iff.mp h
  exact lt_of_node? hn

/-- Jumps do not lead to arms. -/
theorem IsTarget.armAt_eq_none (h : d.IsTarget v) : d.graph.armAt v = none :=
  not_not.mp fun hn => h.2.2 (.inl hn)

namespace Grown

variable (g : Grown d d' σ)
include g

/-- A node that jumps may lead to stays one. -/
theorem isTarget (hv : d.IsTarget v) : d'.IsTarget v :=
  ⟨hv.1.trans_le g.size_le, hv.2.1, fun hs => hv.2.2 ((sealed_congr (g.node_eq v hv.1)).mp hs)⟩

/-- A closed loop stays closed. -/
theorem closedLoop (hc : d.ClosedLoop u e) : d'.ClosedLoop u e := by
  refine ⟨g.isTarget hc.exit_target, ?_⟩
  cases hc.closes with
  | first f test leave => exact .first f (g.edge_of _ _ test) (g.edge_of _ _ leave)
  | last test t f isEntry le back isArm arm other leave =>
    have hentry := kindAt_congr (g.node_eq u (lt_of_kindAt isEntry))
    have harm := armAt_congr (g.node_eq t (lt_of_armAt isArm))
    exact .last test t f (hentry.trans isEntry) le (g.edge_of _ _ back) (harm ▸ isArm)
      (g.edge_of _ _ arm) (g.edge_of _ _ other) (g.edge_of _ _ leave)

/-- A node stays loose until an edge is drawn from it. -/
theorem loose (hx : d.Loose x) (hs : ¬σ x) : d'.Loose x where
  lt := hx.lt.trans_le g.size_le
  ne_exit := hx.ne_exit
  isOpen := hx.isOpen.grown g hx.lt hs
  not_decision := kindAt_congr (g.node_eq x hx.lt) ▸ hx.not_decision

end Grown

/-- The entry and the exit are there from the start. -/
theorem Shaped.two_le (h : d.Shaped) : 2 ≤ d.size := lt_of_node? (u := 1) (h.ends 1 Nat.one_lt_two)

theorem Shaped.kindAt_exit (h : d.Shaped) : d.graph.kindAt exit = some .exit :=
  congrArg (Option.map FlowNode.kind) (h.ends exit Nat.one_lt_two)

theorem Shaped.armAt_entry (h : d.Shaped) : d.graph.armAt entry = none := by
  rw [armAt, h.ends entry Nat.zero_lt_two]
  rfl

theorem Shaped.not_sealed_entry (h : d.Shaped) : ¬d.graph.Sealed entry := by
  rw [Sealed, h.armAt_entry, kindAt, h.ends entry Nat.zero_lt_two]
  exact fun hs => hs.elim (absurd rfl) nofun

theorem Shaped.isTarget_exit (h : d.Shaped) : d.IsTarget exit := by
  refine ⟨h.two_le, nofun, ?_⟩
  rw [Sealed, h.kindAt_exit, armAt, h.ends exit Nat.one_lt_two]
  exact fun hs => hs.elim (absurd rfl) nofun

/-! ## Single steps -/

/-! ### Nodes -/

section Push

variable (d : Draft) (n : FlowNode) (u : Nat)

/-- A new node has the next number, and the others stay as they are. -/
theorem node?_push : (d.push n).graph.node? u = if u = d.size then some n else d.graph.node? u := by
  show (d.graph.nodes ++ [n])[u]? = _
  rw [getElem?_append]
  split
  · rename_i hlt
    rw [if_neg (show u ≠ d.size from hlt.ne)]
    rfl
  · rename_i hlt
    by_cases hu : u = d.size
    · rw [if_pos hu, hu]
      simp [size]
    · have hlt' : d.size < u := by
        unfold size at hu ⊢
        omega
      rw [if_neg hu, show d.graph.node? u = none from getElem?_eq_none hlt'.le]
      exact getElem?_eq_none (Nat.sub_pos_of_lt hlt')

theorem armAt_push :
    (d.push n).graph.armAt u = if u = d.size then n.branch else d.graph.armAt u := by
  rw [armAt, node?_push]
  split <;> rfl

theorem kindAt_push :
    (d.push n).graph.kindAt u = if u = d.size then some n.kind else d.graph.kindAt u := by
  rw [kindAt, node?_push]
  split <;> rfl

theorem loopExitAt_push :
    (d.push n).graph.loopExitAt u = if u = d.size then n.loopExit else d.graph.loopExitAt u := by
  rw [loopExitAt, node?_push]
  split <;> rfl

variable {d n u}

/-- Of the nodes from the next number on only the new one can name the exit of a loop. -/
theorem loopExitAt_push_of_le (h : (d.push n).graph.loopExitAt u = some e) (hu : d.size ≤ u) :
    u = d.size ∧ n.loopExit = some e := by
  rw [loopExitAt_push] at h
  split at h
  · exact ⟨‹_›, h⟩
  · exact absurd (lt_of_loopExitAt h) (Nat.not_lt.mpr hu)

end Push

/-- A node that is no arm can be added: no edge and no branch speaks of it. -/
theorem Shaped.push (h : d.Shaped) (hid : n.id = d.size) (hbranch : n.branch = none) :
    (d.push n).Shaped where
  ends := by
    intro u hu
    have := h.two_le
    rw [node?_push, if_neg (by omega), h.ends u hu]
  node_id := by
    intro u m hm
    rw [node?_push] at hm
    split at hm
    · cases hm
      exact hid.trans (Eq.symm ‹_›)
    · exact h.node_id u m hm
  branch_id := h.branch_id
  edge_ends := by
    intro u v he
    have := h.edge_ends u v he
    rw [size_push]
    omega
  edges_nodup := h.edges_nodup
  decision_out := by
    intro u v he
    have := h.edge_ends u v he
    rw [kindAt_push, armAt_push, if_neg (by omega), if_neg (by omega)]
    exact h.decision_out u v he
  arm_entered := by
    intro v i hv
    rw [armAt_push] at hv
    split at hv
    · cases hbranch.symm.trans hv
    · exact h.arm_entered v i hv
  armAt_of := by
    intro i b v hb hv
    have harm := h.armAt_of i b v hb hv
    have hlt := lt_of_armAt (harm ▸ Option.some_ne_none i)
    rw [armAt_push, if_neg hlt.ne, harm]
  loop_entered := by
    intro x hk u w hu
    have := h.edge_ends u x hu
    rw [kindAt_push, if_neg (by omega)] at hk
    exact h.loop_entered x hk u w hu

/-! ### Edges -/

/-- An edge may be added: its target is no arm, and if it is the entry of a loop, then there is none
yet from the same side. -/
structure MayEnter (d : Draft) (src dst : Nat) : Prop where
  lt : dst < d.size
  ne_entry : dst ≠ entry
  not_arm : d.graph.armAt dst = none
  other_side : d.graph.kindAt dst = some .loopEntry → ∀ w, d.Edge w dst → ¬(w < dst ↔ src < dst)

section AddEdge

variable {src dst : Nat} (kind : FlowEdgeKind) (label : Option String)

/-- An edge may be added to a node that jumps may lead to, from any node. -/
theorem IsTarget.mayEnter (h : d.IsTarget dst) : d.MayEnter src dst :=
  ⟨h.1, h.2.1, h.armAt_eq_none, fun hk => absurd (.inr hk) h.2.2⟩

theorem Shaped.nodup_addEdge (h : d.Shaped) (hnew : ¬d.Edge src dst) :
    ((addEdge src dst kind label d).2.graph.edges.map fun e => (e.src, e.dst)).Nodup := by
  have hmem : (src, dst) ∉ d.graph.edges.map fun e => (e.src, e.dst) := by
    rintro hmem
    obtain ⟨e, he, heq⟩ := mem_map.mp hmem
    exact hnew ((edge_iff d src dst).mpr ⟨e, he, congrArg Prod.fst heq, congrArg Prod.snd heq⟩)
  simpa only [addEdge, map_append, map_singleton, concat_eq_append] using h.edges_nodup.concat hmem

/-- An edge from a loose node can be added: the node is no decision, so it needs no arm behind it.
-/
theorem Shaped.addEdge (h : d.Shaped) (hsrc : d.Loose src) (hdst : d.MayEnter src dst) :
    (addEdge src dst kind label d).2.Shaped := by
  have hedge := edge_addEdge d src dst kind label
  refine { h with
    edge_ends := ?_, edges_nodup := ?_, decision_out := ?_, arm_entered := ?_, loop_entered := ?_ }
  · intro u v he
    rcases (hedge u v).mp he with he | ⟨rfl, rfl⟩
    · exact h.edge_ends u v he
    · exact ⟨⟨hsrc.lt, hsrc.ne_exit⟩, hdst.lt, hdst.ne_entry⟩
  · exact h.nodup_addEdge kind label (hsrc.isOpen dst)
  · intro u v he hk
    rcases (hedge u v).mp he with he | ⟨rfl, _⟩
    · exact h.decision_out u v he hk
    · exact absurd hk hsrc.not_decision
  · intro v i hv
    obtain ⟨b, hb, hsome, hin⟩ := h.arm_entered v i hv
    -- The new edge leads to no arm.
    have hne : v ≠ dst := by
      rintro rfl
      exact Option.some_ne_none i (hv.symm.trans hdst.not_arm)
    exact ⟨b, hb, hsome, fun u => ((hedge u v).trans (or_iff_left fun hn => hne hn.2)).trans
      (hin u)⟩
  · intro x hk u w hu hw hside
    -- Of two edges from the same side of the entry at most one can be new.
    rcases (hedge u x).mp hu with hu' | ⟨rfl, rfl⟩ <;>
      rcases (hedge w x).mp hw with hw' | ⟨rfl, hx⟩
    · exact h.loop_entered x hk u w hu' hw' hside
    · subst hx
      exact absurd hside (hdst.other_side hk u hu')
    · exact absurd hside.symm (hdst.other_side hk w hw')
    · rfl

end AddEdge

/-! ### Arms -/

section AddArm

variable {b : Branch} (kind : FlowEdgeKind) (label : Option String)

theorem getElem?_branches_addArm (i : Nat) : (addArm b kind label d).2.branches[i]? =
    d.branches[i]?.map fun b' => if b.id = i then { b' with armNode := some d.size } else b' :=
  getElem?_modify ..

/-- The arm of a branch can be added.  It is entered from the decision of the branch only. -/
theorem Shaped.addArm (h : d.Shaped) (hb : d.Knows b) : (addArm b kind label d).2.Shaped := by
  have hedge := edge_addArm d b kind label
  have hbranch := getElem?_branches_addArm (d := d) (b := b) kind label
  have harm := armAt_push d (d.arm b)
  have hkind := kindAt_push d (d.arm b)
  have htwo := h.two_le
  have hlt := lt_of_kindAt hb.decision
  have hfresh : ∀ u, ¬d.Edge u d.size :=
    fun u he => absurd (h.edge_ends u _ he).2.1 (Nat.lt_irrefl _)
  refine
    { ends := fun u hu => ?_, node_id := fun u n hn => ?_, branch_id := fun i b' hb' => ?_
      edge_ends := fun u v he => ?_, edges_nodup := h.nodup_addEdge kind label (hfresh _)
      decision_out := fun u v he hk => ?_, arm_entered := fun v i hv => ?_
      armAt_of := fun i b' v hb' hv => ?_, loop_entered := fun x hk u w hu hw => ?_ }
  · refine (node?_push d (d.arm b) u).trans ?_
    rw [if_neg (by omega), h.ends u hu]
  · replace hn := (node?_push d (d.arm b) u).symm.trans hn
    split at hn
    · cases hn
      exact Eq.symm ‹_›
    · exact h.node_id u n hn
  · rw [hbranch] at hb'
    obtain ⟨b2, hb2, rfl⟩ := Option.map_eq_some_iff.mp hb'
    have hid := h.branch_id i b2 hb2
    split <;> exact hid
  · rw [size_addArm]
    rcases (hedge u v).mp he with he | ⟨rfl, rfl⟩
    · have := h.edge_ends u v he
      omega
    · refine ⟨⟨by omega, fun he => ?_⟩, by omega, by unfold entry; omega⟩
      have hexit := h.kindAt_exit
      rw [← he, hb.decision] at hexit
      cases hexit
  · refine (harm v).trans_ne ?_
    rcases (hedge u v).mp he with he | ⟨rfl, rfl⟩
    · have := h.edge_ends u v he
      rw [if_neg (by omega)]
      refine h.decision_out u v he (((hkind u).trans ?_).symm.trans hk)
      rw [if_neg (by omega)]
    · rw [if_pos rfl]
      exact Option.some_ne_none b.id
  · replace hv := (harm v).symm.trans hv
    split at hv
    -- The new arm belongs to its branch, whose entry of the table now names it.
    · subst v
      cases hv
      obtain ⟨b0, hb0, hdec⟩ := hb.exists_branch
      refine ⟨{ b0 with armNode := some d.size }, ?_, nofun, fun u => ?_⟩
      · rw [hbranch, hb0, Option.map_some, if_pos rfl]
      · rw [hedge, or_iff_right (hfresh u), and_iff_left rfl, hdec]
    -- An earlier arm keeps its branch and the edge from its decision.
    · obtain ⟨b1, hb1, hsome, hin⟩ := h.arm_entered v i hv
      refine ⟨_, (hbranch i).trans (congrArg _ hb1), ?_, fun u => ?_⟩
      · split
        · nofun
        · exact hsome
      · rw [hedge, or_iff_left fun hn => ‹v ≠ d.size› hn.2, hin]
        split <;> rfl
  · rw [hbranch] at hb'
    obtain ⟨b2, hb2, rfl⟩ := Option.map_eq_some_iff.mp hb'
    refine (harm v).trans ?_
    split at hv
    · cases hv
      rw [if_pos rfl]
      exact congrArg some ‹_›
    · have harm' := h.armAt_of i b2 v hb2 hv
      rw [if_neg (lt_of_armAt (harm' ▸ Option.some_ne_none i)).ne, harm']
  · replace hk := (hkind x).symm.trans hk
    split at hk
    · cases hk
    · have hold : ∀ u, (Draft.addArm b kind label d).2.Edge u x → d.Edge u x := fun u he =>
        ((hedge u x).mp he).resolve_right fun hn => ‹x ≠ d.size› hn.2
      exact h.loop_entered x hk u w (hold u hu) (hold w hw)

end AddArm

/-! ### Decisions -/

/-- The branches of a new decision have no arms yet. -/
theorem Shaped.divide {specs : List BranchSpec} {bs : List Branch} (h : (d.push n).Shaped)
    (hbs : Numbered d.size d.branches.length specs bs) : (d.divide n none bs).Shaped := by
  refine { h with branch_id := ?_, arm_entered := ?_, armAt_of := ?_ }
  · intro i b hb
    exact (hbs.getElem?_append_iff.mp hb).elim (h.branch_id i b) And.right
  · intro v i hv
    obtain ⟨b, hb, hrest⟩ := h.arm_entered v i hv
    exact ⟨b, hbs.getElem?_append_iff.mpr (.inl hb), hrest⟩
  · intro i b v hb hv
    rcases hbs.getElem?_append_iff.mp hb with hb | ⟨hb, _⟩
    · exact h.armAt_of i b v hb hv
    · cases (hbs.fresh b hb).2.symm.trans hv

/-! ## Steps -/

/-- A draft keeps what a scope promises if less is promised. -/
theorem Wired.within (h : Wired s d) (hw : s'.Within s) : Wired s' d :=
  { h with
    target := fun v hv => h.target v (hw.targets_of v hv)
    flows := fun u hu => h.flows u (hw.free_of u hu)
    known := fun b hb => h.known b (hw.known_of b hb)
    pending_entered := fun x u hx => h.pending_entered x u ((hw.pending_iff x).mp hx)
    closed := fun x e he => (h.closed x e he).imp_left (hw.pending_iff x).mpr }

/-- What a step has to show.  A draft has grown from some sources, which are not free any more; what
is new in the scope is in the draft as it should be, and where nothing is said nothing is new. -/
structure Advances (s : Scope) (d : Draft) (σ : Nat → Prop) (s' : Scope) (d' : Draft) : Prop where
  grown : Grown d d' σ
  shaped : d'.Shaped
  source_of : ∀ u, σ u → s.free u ∨ d.graph.kindAt u = some .decision
  target_of : ∀ v, s'.targets v → s.targets v ∨ d'.IsTarget v := by exact fun _ => .inl
  free_of : ∀ u, s'.free u → s.free u ∧ ¬σ u ∨ d'.Flows u := by exact fun _ hu => .inl ⟨hu, nofun⟩
  known_of : ∀ b, s'.known b → s.known b ∨ d'.Knows b := by exact fun _ => .inl
  branch_of : ∀ (i : Nat) (b : Branch), d.branches[i]? = some b →
    ∃ b' : Branch, d'.branches[i]? = some b' ∧ b'.decisionNode = b.decisionNode := by
      exact fun _ b hb => ⟨b, hb, rfl⟩
  label_of : ∀ v ∈ d'.labels.values, v ∈ d.labels.values ∨ d'.IsTarget v := by exact fun _ => .inl
  goto_of : ∀ x ∈ d'.gotos, x ∈ d.gotos ∨ σ x.1 ∧ d'.Loose x.1 := by exact fun _ => .inl
  gotos_nodup : (d.gotos.map Prod.fst).Nodup → (d'.gotos.map Prod.fst).Nodup := by exact fun h => h
  pending_of : ∀ x, s'.pending x → s.pending x ∨ d.size ≤ x := by exact fun _ => .inl
  entered_of : ∀ x u, s'.pending x → d'.graph.kindAt x = some .loopEntry → d'.Edge u x →
    d.Edge u x ∨ u < x := by exact fun _ _ _ _ => .inl
  closed_of : ∀ x e, d'.graph.loopExitAt x = some e → s.pending x ∨ d.size ≤ x →
    s'.pending x ∨ d'.ClosedLoop x e := by
      exact fun x e he hx => .inl (hx.resolve_right (Nat.not_le.mpr (lt_of_loopExitAt he)))

/-- A step keeps a draft wired.  What is old stays, as nodes and edges do; what is new was shown. -/
theorem Wired.advance (h : Wired s d) (ha : Advances s d σ s' d') : Wired s' d' where
  toShaped := ha.shaped
  target := fun v hv => (ha.target_of v hv).elim (fun hv => ha.grown.isTarget (h.target v hv)) id
  flows := by
    intro u hu
    -- A node that was free is loose still, and no jump that is new starts there.
    rcases ha.free_of u hu with ⟨hfree, hnot⟩ | hnew
    · refine { ha.grown.loose (h.flows u hfree).toLoose hnot with not_goto := fun x hx heq => ?_ }
      rcases ha.goto_of x hx with hx | ⟨hσ, _⟩
      · exact (h.flows u hfree).not_goto x hx heq
      · exact hnot (heq ▸ hσ)
    · exact hnew
  known := by
    intro b hb
    rcases ha.known_of b hb with hb | hnew
    · obtain ⟨b', hb', hdec⟩ := (h.known b hb).exists_branch
      obtain ⟨b'', hb'', hdec'⟩ := ha.branch_of b.id b' hb'
      have hkind := (h.known b hb).decision
      exact ⟨(kindAt_congr (ha.grown.node_eq _ (lt_of_kindAt hkind))).trans hkind, b'', hb'',
        hdec'.trans hdec⟩
    · exact hnew
  pending_entered := by
    intro x u hx hk he
    rcases ha.entered_of x u hx hk he with he | hlt
    · have hlt := (h.edge_ends u x he).2.1
      rw [kindAt_congr (ha.grown.node_eq x hlt)] at hk
      exact h.pending_entered x u ((ha.pending_of x hx).resolve_right (Nat.not_le.mpr hlt)) hk he
    · exact hlt
  closed := by
    intro x e he
    by_cases hx : x < d.size
    · have hold : d.graph.loopExitAt x = some e := by
        rw [loopExitAt, ← ha.grown.node_eq x hx]
        exact he
      rcases h.closed x e hold with hp | hc
      · exact ha.closed_of x e he (.inl hp)
      · exact .inr (ha.grown.closedLoop hc)
    · exact ha.closed_of x e he (.inr (Nat.not_lt.mp hx))
  label_target := fun v hv =>
    (ha.label_of v hv).elim (fun hv => ha.grown.isTarget (h.label_target v hv)) id
  goto_loose := by
    intro x hx
    rcases ha.goto_of x hx with hx | ⟨_, hloose⟩
    -- An earlier jump is no source of this step: its node is neither free nor a decision.
    · refine ha.grown.loose (h.goto_loose x hx) fun hσ => ?_
      rcases ha.source_of x.1 hσ with hfree | hdec
      · exact (h.flows x.1 hfree).not_goto x hx rfl
      · exact (h.goto_loose x hx).not_decision hdec
    · exact hloose
  gotos_nodup := ha.gotos_nodup h.gotos_nodup

section

variable (h : Wired s d)
include h

/-- Jumps may lead to a new node, unless it is an arm or the entry of a loop. -/
theorem Wired.isTarget_push (hbranch : n.branch = none) (hkind : n.kind ≠ .loopEntry) :
    (d.push n).IsTarget d.size := by
  have := h.two_le
  refine ⟨by rw [size_push]; omega, by unfold entry; omega, ?_⟩
  rw [Sealed, armAt_push, kindAt_push, if_pos rfl, if_pos rfl, hbranch, Option.some.injEq]
  exact fun hs => hs.elim (absurd rfl) hkind

/-- Control may go on from a new node that is no decision. -/
theorem Wired.flows_push (hkind : n.kind ≠ .decision) : (d.push n).Flows d.size where
  lt := by
    rw [size_push]
    exact Nat.lt_succ_self _
  ne_exit := Nat.ne_of_gt h.two_le
  isOpen := fun v he => absurd (h.edge_ends _ v he).1.1 (Nat.lt_irrefl _)
  not_decision := by
    rw [kindAt_push, if_pos rfl]
    exact fun hk => hkind (Option.some.inj hk)
  not_goto := fun x hx => (h.goto_loose x hx).lt.ne

theorem Wired.not_edge_size (u : Nat) : ¬d.Edge u d.size :=
  fun he => absurd (h.edge_ends u _ he).2.1 (Nat.lt_irrefl _)

/-- An edge is drawn from where control is, which then is there no more. -/
theorem Wired.addEdge {src dst : Nat} (hsrc : s.free src) (hdst : d.MayEnter src dst)
    (hside : d.graph.kindAt dst = some .loopEntry → src < dst) (kind : FlowEdgeKind)
    (label : Option String) : Wired (s.move (some src) none) (addEdge src dst kind label d).2 := by
  have hloose := (h.flows src hsrc).toLoose
  refine h.advance
    { grown := grown_addEdge d dst kind label hloose.lt
      shaped := h.toShaped.addEdge kind label hloose hdst
      source_of := fun u hu => .inl (hu ▸ hsrc), free_of := by grind, entered_of := ?_ }
  intro x u _ hk he
  rcases (edge_addEdge d src dst kind label u x).mp he with he | ⟨rfl, rfl⟩
  exacts [.inl he, .inr (hside hk)]

/-- The arm of a known branch is drawn, and control may go on from it. -/
theorem Wired.addArm (hb : s.known b) (kind : FlowEdgeKind) (label : Option String) :
    Wired { s with free := fun u => s.free u ∨ u = d.size } (addArm b kind label d).2 := by
  have hknows := h.known b hb
  have hlt := lt_of_kindAt hknows.decision
  have hedge := edge_addArm d b kind label
  refine h.advance
    { grown := grown_addArm d b kind label hlt, shaped := h.toShaped.addArm kind label hknows
      source_of := fun u hu => .inr (hu ▸ hknows.decision), free_of := ?_, branch_of := ?_
      entered_of := ?_, closed_of := ?_ }
  · rintro u (hu | rfl)
    · refine .inl ⟨hu, ?_⟩
      rintro rfl
      exact (h.flows _ hu).not_decision hknows.decision
    · refine .inr { h.flows_push (n := d.arm b) nofun with isOpen := fun v he => ?_ }
      rcases (hedge d.size v).mp he with he | ⟨heq, _⟩
      · exact absurd (h.edge_ends _ v he).1.1 (Nat.lt_irrefl _)
      · exact absurd hlt (heq ▸ Nat.lt_irrefl _)
  · intro i b1 hb1
    refine ⟨_, (getElem?_branches_addArm kind label i).trans (congrArg _ hb1), ?_⟩
    split <;> rfl
  · intro x u _ _ he
    rcases (hedge u x).mp he with he | ⟨rfl, rfl⟩
    exacts [.inl he, .inr hlt]
  · rintro x e he (hx | hle)
    · exact .inl hx
    · cases (loopExitAt_push_of_le he hle).2

end

/-- Every step keeps a draft wired. -/
theorem Step.wired (h : Step s d s' d') (hw : Wired s d) : Wired s' d' := by
  have hpush (n : FlowNode) := grown_push d n fun _ => False
  cases h with
  | forget h => exact hw.within h
  | point n hid hbranch hloop hkind =>
    refine hw.advance
      { grown := hpush n, shaped := hw.toShaped.push hid hbranch, source_of := nofun
        target_of := ?_, free_of := ?_, closed_of := ?_ }
    · rintro v (hv | rfl)
      exacts [.inl hv, .inr (hw.isTarget_push hbranch hkind.2)]
    · rintro u (hu | rfl)
      exacts [.inl ⟨hu, nofun⟩, .inr (hw.flows_push hkind.1)]
    · rintro x e he (hx | hle)
      · exact .inl hx
      · cases hloop.symm.trans (loopExitAt_push_of_le he hle).2
  | @decision n _ bs hid hbranch hkind hbs =>
    have hdecision : (d.push n).graph.kindAt d.size = some .decision := by
      rw [kindAt_push, if_pos rfl, hkind]
    refine hw.advance
      { grown := (hpush n).of_graph_eq rfl, shaped := (hw.toShaped.push hid hbranch).divide hbs
        source_of := nofun, target_of := ?_
        known_of := ?_, branch_of := ?_, pending_of := ?_, closed_of := ?_ }
    · rintro v (hv | rfl)
      exacts [.inl hv, .inr (hw.isTarget_push hbranch (by rw [hkind]; nofun))]
    · refine fun b hb => hb.imp_right fun hb => ?_
      have hnode := (hbs.fresh b hb).1
      exact ⟨hnode ▸ hdecision, b, hbs.getElem?_append_iff.mpr (.inr ⟨hb, rfl⟩), rfl⟩
    · exact fun i b hb => ⟨b, hbs.getElem?_append_iff.mpr (.inl hb), rfl⟩
    · exact fun x hx => hx.imp_right (·.1.ge)
    · refine fun x e he hx => .inl (hx.imp_right fun hle => ?_)
      obtain ⟨heq, hloop⟩ := loopExitAt_push_of_le he hle
      exact ⟨heq, hloop ▸ Option.some_ne_none e⟩
  | entry n src hid hbranch hkind hsrc =>
    -- First the node, with which its loop is open, and then the edge into it.
    have hentry : Wired { s with
        pending := fun u => s.pending u ∨ u = d.size
        free := fun u => s.free u ∨ u = d.size } (d.push n) := by
      refine hw.advance
        { grown := hpush n, shaped := hw.toShaped.push hid hbranch, source_of := nofun
          free_of := ?_, pending_of := fun x hx => hx.imp_right (·.ge), closed_of := ?_ }
      · rintro u (hu | rfl)
        exacts [.inl ⟨hu, nofun⟩, .inr (hw.flows_push (by rw [hkind]; nofun))]
      · exact fun x e he hx => .inl (hx.imp_right fun hle => (loopExitAt_push_of_le he hle).1)
    cases src with
    | none => exact hentry.within (by constructor <;> grind)
    | some c =>
      have hc := (hw.flows c (hsrc c rfl)).lt
      have hmay : (d.push n).MayEnter c d.size :=
        ⟨by rw [size_push]; omega, (Nat.zero_lt_of_lt hw.two_le).ne', by
          rw [armAt_push, if_pos rfl, hbranch], fun _ w he => absurd he (hw.not_edge_size w)⟩
      exact (hentry.addEdge (.inl (hsrc c rfl)) hmay (fun _ => hc) .fallThrough none).within
        (by constructor <;> grind)
  | @link src dst kind hsrc hdst =>
    cases src with
    | none => exact hw.within (by constructor <;> grind)
    | some u =>
      have ht := hw.target dst hdst
      exact hw.addEdge (hsrc u rfl) ht.mayEnter (fun hk => absurd (.inr hk) ht.2.2) kind none
  | close top f e htest hleave hexit he =>
    refine { hw with pending_entered := fun x u hx => hw.pending_entered x u hx.1, closed := ?_ }
    intro x e' he'
    rcases hw.closed x e' he' with hx | hc
    · by_cases hxt : x = top
      · subst hxt
        cases hexit.symm.trans he'
        exact .inr ⟨hw.target e he, .first f htest hleave⟩
      · exact .inl ⟨hx, hxt⟩
    · exact .inr hc
  | @last top test t f e n htop hnode hentry hplain hexit ht hf hne hle harm htest hother he =>
    have hkind : d.graph.kindAt top = some .loopEntry := by rw [kindAt, hnode, ← hentry]; rfl
    have hte := hw.target e he
    have hloose := (hw.flows t ht).toLoose
    -- The edge back is the first one from behind the entry.
    have hmay : d.MayEnter t top := by
      refine ⟨lt_of_kindAt hkind, ?_, by rw [armAt, hnode, ← hplain]; rfl, fun _ w hw' hside => ?_⟩
      · rintro rfl
        exact hw.not_sealed_entry (.inr hkind)
      · exact absurd (hside.mp (hw.pending_entered top w htop hkind hw')) (Nat.not_lt.mpr hle)
    have g1 := grown_addEdge d top .backEdge none hloose.lt
    have hloose' := g1.loose (hw.flows f hf).toLoose hne.symm
    have g2 := grown_addEdge _ e .fallThrough none hloose'.lt
    have hedge (u v : Nat) :=
      edge_addEdge (addEdge t top .backEdge none d).2 f e .fallThrough none u v
    have g := (g1.mono fun u _ hu => .inl hu).trans g2 (s := fun u => u = t ∨ u = f) fun u _ => .inr
    refine hw.advance
      { grown := g, source_of := by grind, free_of := by grind, pending_of := fun _ hx => .inl hx.1
        shaped := (hw.toShaped.addEdge _ _ hloose hmay).addEdge _ _ hloose'
          (g1.isTarget hte).mayEnter
        entered_of := ?_, closed_of := ?_ }
    · intro x u hx hk hu
      rcases (hedge u x).mp hu with hu | ⟨rfl, rfl⟩
      · exact .inl (((edge_addEdge d t top .backEdge none u x).mp hu).resolve_right fun h =>
          hx.2 h.2)
      · exact absurd (.inr hk) hte.2.2
    · intro x e' hx hp
      -- The loop that was open is left by the other arm now.
      by_cases hxt : x = top
      · subst hxt
        replace hx : d.graph.loopExitAt x = some e' := hx
        rw [loopExitAt, hnode, Option.bind_some, hexit] at hx
        cases hx
        exact .inr ⟨g.isTarget hte, .last test t f hkind hle
          (g2.edge_of _ _ ((edge_addEdge ..).mpr (.inr ⟨rfl, rfl⟩))) harm (g.edge_of _ _ htest)
          (g.edge_of _ _ hother) ((hedge f e).mpr (.inr ⟨rfl, rfl⟩))⟩
      · exact .inl ⟨hp.resolve_right (Nat.not_le.mpr (lt_of_loopExitAt (d := d) hx)), hxt⟩
  | arm kind label hb => exact hw.addArm hb kind label
  | @label name id hid =>
    have g : Grown d (addLabel name id d).2 fun _ => False := (Grown.refl d _).of_graph_eq rfl
    refine hw.advance
      { grown := g, shaped := { hw.toShaped with }, source_of := nofun, label_of := fun v hv => ?_ }
    rcases Table.mem_values_put hv with hv | rfl
    exacts [.inl hv, .inr (g.isTarget (hw.target _ hid))]
  | @goto name id hid =>
    have g : Grown d (addGoto id name d).2 (· = id) := (Grown.refl d _).of_graph_eq rfl
    have hloose : (addGoto id name d).2.Loose id := { (hw.flows id hid).toLoose with }
    refine hw.advance
      { grown := g, shaped := { hw.toShaped with }, source_of := fun u hu => .inl (hu ▸ hid)
        free_of := by grind, goto_of := fun x hx => ?_, gotos_nodup := fun hnodup => ?_ }
    · refine (mem_append.mp hx).imp_right fun hx => ?_
      rw [mem_singleton.mp hx]
      exact ⟨rfl, hloose⟩
    · have hnew : id ∉ d.gotos.map Prod.fst := by
        rintro hmem
        obtain ⟨x, hx, heq⟩ := mem_map.mp hmem
        exact (hw.flows id hid).not_goto x hx heq
      show ((d.gotos ++ [(id, name)]).map Prod.fst).Nodup
      simpa only [map_append, map_singleton, concat_eq_append] using hnodup.concat hnew

/-- So does every construction, step by step. -/
theorem Steps.wired (h : Steps s d s' d') (hw : Wired s d) : Wired s' d' := by
  induction h with
  | refl => exact hw
  | tail _ hstep ih => exact hstep.wired ih

/-! ## Whole functions -/

/-- The nodes, edges and branches of a draft fit together, and its loops are closed. -/
structure Complete (d : Draft) : Prop extends Shaped d where
  loop_closed : ∀ u e, d.graph.loopExitAt u = some e → d.ClosedLoop u e

theorem shaped_empty (function : Json) : (empty function).Shaped where
  ends := by
    rintro (_ | _ | u) hu
    · rfl
    · rfl
    · omega
  node_id := by
    rintro (_ | _ | u) n hn
    · cases hn; rfl
    · cases hn; rfl
    · cases hn
  branch_id := fun _ _ hb => by cases hb
  edge_ends := nofun
  edges_nodup := nodup_nil
  decision_out := nofun
  arm_entered := by
    rintro (_ | _ | v) i hv <;> cases hv
  armAt_of := fun _ _ _ hb => by cases hb
  loop_entered := nofun

/-- A draft is wired before anything is drawn: control is at the entry. -/
theorem wired_empty (function : Json) : Wired .start (empty function) :=
  { shaped_empty function with
    target := by
      rintro v rfl
      exact (shaped_empty function).isTarget_exit
    flows := by
      rintro u rfl
      exact ⟨⟨Nat.zero_lt_two, nofun, nofun, nofun⟩, nofun⟩
    known := nofun
    pending_entered := nofun
    closed := by rintro (_ | _ | x) e he <;> cases he
    label_target := nofun
    goto_loose := nofun
    gotos_nodup := nodup_nil }

/-- The jumps to labels are drawn last, each from a node that nothing leaves. -/
theorem Complete.addGotos (target : Json → Nat) (gotos : List (Nat × Json)) (h : d.Complete)
    (hloose : ∀ x ∈ gotos, d.Loose x.1) (hnodup : (gotos.map Prod.fst).Nodup)
    (htarget : ∀ name, d.IsTarget (target name)) :
    ((forM gotos fun x => addEdge x.1 (target x.2) .gotoJump none :
      Drawing Unit) d).2.Complete := by
  induction gotos generalizing d with
  | nil => exact h
  | cons x gotos ih =>
    have g := grown_addEdge d (target x.2) .gotoJump none (hloose x mem_cons_self).lt
    obtain ⟨hnot, hnodup⟩ := nodup_cons.mp hnodup
    refine ih (d := (addEdge x.1 (target x.2) .gotoJump none d).2)
      ⟨h.toShaped.addEdge _ _ (hloose x mem_cons_self) (htarget x.2).mayEnter,
        fun u e he => g.closedLoop (h.loop_closed u e he)⟩ (fun y hy => ?_) hnodup
      fun name => g.isTarget (htarget name)
    refine g.loose (hloose y (mem_cons_of_mem _ hy)) ?_
    exact fun heq => hnot (heq ▸ mem_map_of_mem hy)

/-- Drawing a whole body leaves no loop open and no jump loose. -/
theorem complete_addBody (function : Json) (body : Tree) :
    (addBody body (empty function)).2.Complete := by
  have hg := guided_empty function (switchLabels body 0 ≠ [])
  have h := ((draws_addTree body 0 _ _ _ _ hg).link hg.inScope rfl .fallThrough).wired
    (wired_empty function)
  refine Complete.addGotos (fun name => (Table.get? _ name).getD exit) _
    ⟨h.toShaped, fun u e he => (h.closed u e he).resolve_left not_false⟩ h.goto_loose h.gotos_nodup
    fun name => ?_
  cases hname : Table.get? _ name with
  | none => exact h.isTarget_exit
  | some v => exact h.label_target v (Table.mem_values_of_get? hname)

/-- Marking the branches that are reachable changes no node and no edge. -/
theorem Complete.mark (h : d.Complete) (reached : Branch → Bool) :
    Complete { d with
      branches := d.branches.map fun b => { b with isReachable := reached b } } := by
  have hbranch : ∀ (i : Nat) (b : Branch),
      (d.branches.map fun b => { b with isReachable := reached b })[i]? = some b →
        ∃ b' : Branch, d.branches[i]? = some b' ∧ b'.id = b.id ∧ b'.armNode = b.armNode := by
    intro i b hb
    obtain ⟨b', hb', rfl⟩ := Option.map_eq_some_iff.mp (getElem?_map.symm.trans hb)
    exact ⟨b', hb', rfl, rfl⟩
  refine ⟨{ h.toShaped with branch_id := ?_, arm_entered := ?_, armAt_of := ?_ }, fun u e he =>
    ⟨(h.loop_closed u e he).exit_target, (h.loop_closed u e he).closes⟩⟩
  · intro i b hb
    obtain ⟨b', hb', hid, -⟩ := hbranch i b hb
    exact hid.symm.trans (h.branch_id i b' hb')
  · intro v i hv
    obtain ⟨b, hb, hsome, hin⟩ := h.arm_entered v i hv
    exact ⟨_, getElem?_map.trans (congrArg _ hb), hsome, hin⟩
  · intro i b v hb hv
    obtain ⟨b', hb', -, harm⟩ := hbranch i b hb
    exact h.armAt_of i b' v hb' (harm.trans hv)

/-- **Every statement tree gives a graph that fits together.** -/
theorem complete_drawn (function : Json) (body : Tree) : (drawn function body).Complete :=
  (complete_addBody function body).mark _

end Draft

end Branchwise
