import Branchwise.Proofs.Flow.Decisions
import Branchwise.Proofs.Flow.Steps

/-!
# Statements and walks

The walks from the node where control is are the runs of the statement drawn there.  `Settled` says
that a final graph has the edges of a draft wherever a scope leaves nothing to be added, and
`Follows` that the walks are the runs.
-/

namespace Branchwise

open FlowGraph Behaviour

namespace Draft

open Branchwise.Tree

variable {g : FlowGraph} {s s' : Scope} {targets : JumpTargets} {d d' : Draft} {u x dst n : Nat}
  {current last : Option Nat} {kind : FlowEdgeKind} {r r1 r2 : Option Nat × Draft}
  {p q : Behaviour} {labelled : Prop}

/-! ## Settled parts of a graph -/

/-- A graph has the nodes of a draft, and the edges from all but the sources of a scope. -/
structure Settled (g : FlowGraph) (s : Scope) (d : Draft) : Prop where
  node_eq : ∀ x < d.size, g.node? x = d.graph.node? x
  edge_iff : ∀ x < d.size, ¬s.Source x → ∀ v, v ∈ g.successors x ↔ d.Edge x v

theorem Settled.within (h : Settled g s d) (hw : s.Within s') : Settled g s' d where
  node_eq := h.node_eq
  edge_iff := fun x hx hnot => h.edge_iff x hx fun hn => hnot (hn.imp (hw.free_of x)
    fun ⟨b, hb, hdec⟩ => ⟨b, hw.known_of b hb, hdec⟩)

/-- Later steps change nothing at the nodes that are no sources. -/
theorem Settled.before (h : Settled g s' d') (hs : Scoped s d) (hsteps : Steps s d s' d') :
    Settled g s d := by
  obtain ⟨hg, -, hsource⟩ := hsteps.evolves hs
  refine ⟨fun x hx => (h.node_eq x (hx.trans_le hg.size_le)).trans (hg.node_eq x hx),
    fun x hx hnot v => ?_⟩
  rw [h.edge_iff x (hx.trans_le hg.size_le) (fun hn => hnot (hsource x hx hn)) v,
    hg.edge_iff hx hnot v]

theorem Settled.marks_eq (h : Settled g s d) (hx : x < d.size) : g.marks x = d.graph.marks x := by
  unfold marks
  rw [h.node_eq x hx]

/-- A node that was open is left only by the edge that was added there. -/
theorem Settled.single (h : Settled g s (link (some u) dst kind d).2) (hlt : u < d.size)
    (hopen : d.Open u) (hnot : ¬s.Source u) (v : Nat) : v ∈ g.successors u ↔ v = dst := by
  rw [h.edge_iff u (by rw [size_link]; exact hlt) hnot v, edge_link, or_iff_right (hopen v),
    and_iff_right rfl]

section

variable (hs : Scoped s d)
include hs

theorem Scoped.not_source (hx : d.size ≤ x) : ¬s.Source x :=
  fun h => Nat.not_lt.mpr hx (h.elim (hs.free_lt x) (hs.decides_lt x))

theorem Scoped.not_source_move (hu : s.free u) (hlast : last ≠ some u) :
    ¬(s.move (some u) last).Source u := by
  rintro ((⟨_, hne⟩ | hlast') | hdec)
  exacts [hne rfl, hlast hlast', hs.apart u hdec hu]

theorem Scoped.not_source_new (hx : d.size ≤ x) (hlast : last ≠ some x) :
    ¬(s.move current last).Source x := by
  rintro ((⟨hfree, _⟩ | hlast') | hdec)
  exacts [hs.not_source hx (.inl hfree), hlast hlast', hs.not_source hx (.inr hdec)]

theorem Scoped.ne_exit (hx : d.size ≤ x) : x ≠ exit := Nat.ne_of_gt (hs.two_le.trans hx)

/-- A statement was drawn and its last node led to a target: then that is all that leaves it, and
the statement is settled. -/
theorem Stepped.settled (h : Stepped s d current r) (hdst : s.targets dst)
    (hset : Settled g (s.move current none) (Draft.link r.1 dst kind r.2).2) :
    (∀ w, r.1 = some w → ∀ v, v ∈ g.successors w ↔ v = dst) ∧
      Settled g (s.move current r.1) r.2 := by
  have hs' := (h.steps.evolves hs).2.1
  refine ⟨fun w hw => ?_, hset.before hs' (h.link_last hs hdst kind)⟩
  rw [hw] at hset hs'
  refine hset.single (hs'.free_lt w (.inr rfl)) (hs'.free_open w (.inr rfl)) ?_
  rintro ((⟨hfree, hc⟩ | hnone) | hdec)
  · rcases h.last_new w hw with hcur | hle
    exacts [hc hcur, absurd (hs.free_lt w hfree) (Nat.not_lt.mpr hle)]
  · cases hnone
  · exact hs'.apart w hdec (.inr rfl)

end

/-- A node was added after the node where control was. -/
theorem Settled.visit {m : FlowNode} {k : FlowEdgeKind} (hg : Guided s d (some u) targets labelled)
    (hset : Settled g (s.visit (some u) d.size) (link (some u) d.size k (d.push m)).2)
    (hm : m.branch = none) : (∀ v, v ∈ g.successors u ↔ v = d.size) ∧ g.marks d.size = [] := by
  have hlt := hg.current_lt u rfl
  have hfree := hg.current_free u rfl
  have hsize := size_push d m
  refine ⟨hset.single (by omega) (hg.inScope.free_open u hfree)
    (hg.inScope.not_source_move hfree (some_ne_some hlt.ne')), ?_⟩
  rw [hset.marks_eq (by rw [size_link]; omega), marks_link, marks_push_self, hm]
  rfl

/-! ## Statements and walks -/

def Leads (g : FlowGraph) (current : Option Nat) (m : Nat) (bs : List Nat) : Prop :=
  ∃ w, current = some w ∧ g.Leaves m w bs

def Ends (g : FlowGraph) (targets : JumpTargets) (next : Nat → List Nat → Prop) : Continuation :=
  fun m e bs =>
    match e with
    | .normal => next m bs
    | .break => g.Walks m (targets.breakTo.getD exit) bs
    | .continue => g.Walks m (targets.continueTo.getD exit) bs
    | .return => g.Walks m exit bs

/-- The walks from the node where control was are the runs of what was drawn there. -/
structure Follows (g : FlowGraph) (targets : JumpTargets) (p : Behaviour) (u : Nat)
    (r : Option Nat × Draft) : Prop where
  fragment : Fragment g u p (Ends g targets (Leads g r.1))
  normal : ∀ bs, p bs .normal → ∃ w, r.1 = some w
  broken : ∀ bs, p bs .break → ∃ x, r.2.Edge x (targets.breakTo.getD exit)

/-- In every scope, the walks are the runs. -/
def Tracks (draw : Option Nat → JumpTargets → Drawing (Option Nat)) (runs : Nat → Behaviour) :
    Prop :=
  ∀ (s : Scope) (d : Draft) (u : Nat) (targets : JumpTargets) (g : FlowGraph),
    Guided s d (some u) targets True → g.marks exit = [] →
    Settled g (s.move (some u) (draw (some u) targets d).1) (draw (some u) targets d).2 →
    Follows g targets (runs d.branches.length) u (draw (some u) targets d)

theorem ends_iff {next next' : Nat → List Nat → Prop} {m : Nat} {e : Completion} {bs : List Nat}
    (he : e ≠ .normal) : Ends g targets next m e bs ↔ Ends g targets next' m e bs := by
  cases e with
  | normal => exact absurd rfl he
  | «break» | «continue» | «return» => exact Iff.rfl

theorem leads_some (g : FlowGraph) (w m : Nat) (bs : List Nat) :
    Leads g (some w) m bs ↔ g.Leaves m w bs := by
  simp [Leads]

/-! ## Statements one after the other -/

theorem Follows.andThen {σ : Nat → Prop}
    (h1 : Follows g targets p u r1) (h2 : ∀ w, r1.1 = some w → Follows g targets q w r2)
    (hg : Grown r1.2 r2.2 σ) :
    Follows g targets (p.andThen q) u r2 where
  fragment := by
    refine h1.fragment.andThen (fun m e bs he => ends_iff he) fun bs hp => ?_
    obtain ⟨w, hw⟩ := h1.normal bs hp
    refine ⟨w, fun m bs => ?_, (h2 w hw).fragment⟩
    rw [hw]
    exact leads_some g w m bs
  normal := by
    rintro bs (⟨_, hne⟩ | ⟨bs1, bs2, hp, hq, _⟩)
    · exact absurd rfl hne
    · obtain ⟨w, hw⟩ := h1.normal bs1 hp
      exact (h2 w hw).normal bs2 hq
  broken := by
    rintro bs (⟨hp, _⟩ | ⟨bs1, bs2, hp, hq, _⟩)
    · exact (h1.broken bs hp).imp fun x he => hg.edge_of x _ he
    · obtain ⟨w, hw⟩ := h1.normal bs1 hp
      exact (h2 w hw).broken bs2 hq

theorem Follows.skip (d : Draft) : Follows g targets (ends .normal) u (some u, d) where
  fragment := Fragment.skip fun m bs => leads_some g u m bs
  normal := fun _ _ => ⟨u, rfl⟩
  broken := fun _ h => absurd h.2 nofun

theorem Follows.enter {v : Nat}
    (h : Follows g targets p v r) (hs : ∀ x, x ∈ g.successors u ↔ x = v) (hmark : g.marks v = [])
    (hv : v ≠ exit) : Follows g targets p u r :=
  ⟨h.fragment.enter hs hmark hv, h.normal, h.broken⟩

theorem Tracks.andThen {draw draw' : Option Nat → JumpTargets → Drawing (Option Nat)}
    {p q : Nat → Behaviour} (h : Tracks draw p) (h' : Tracks draw' q) (hd : Draws True draw)
    (hd' : Draws True draw')
    (hn : ∀ current targets d, (draw current targets d).2.branches.length = d.branches.length + n) :
    Tracks (fun current targets d =>
        draw' (draw current targets d).1 targets (draw current targets d).2)
      fun b => (p b).andThen (q (b + n)) := by
  intro s d u targets g hg hexit hset
  have h1 := hd s d (some u) targets hg
  have hcounted := hn (some u) targets d
  have hfirst := h s d u targets g hg hexit
  dsimp only at hset ⊢
  generalize draw (some u) targets d = r1 at h1 hcounted hfirst hset ⊢
  have hg1 := h1.guided hg
  have h2 := hd' _ _ _ targets hg1
  have hset2 := hset.within (h1.within hg.inScope _)
  refine (hfirst (hset2.before hg1.inScope h2.steps)).andThen (fun w hw => ?_)
    (h2.steps.evolves hg1.inScope).1
  rw [hw] at hg1 hset2 ⊢
  have hsecond := h' _ r1.2 w targets g hg1 hexit hset2
  rwa [hcounted] at hsecond

/-! ## Decisions with two arms -/

/-- A decision `h` with the arms `h + 1` and `h + 2` comes after `u`. -/
structure Splits (g : FlowGraph) (b u h : Nat) : Prop where
  le : 2 ≤ h
  enter : ∀ v, v ∈ g.successors u ↔ v = h
  test : ∀ v, v ∈ g.successors h ↔ v = h + 1 ∨ v = h + 2
  marks_test : g.marks h = []
  marks_in : g.marks (h + 1) = [b]
  marks_out : g.marks (h + 2) = [b + 1]

theorem Settled.splits {e : Option Nat} (h : Settled g (s.fork (some u) d.size e) d')
    (hg : Guided s d (some u) targets labelled) (hf : Forked d (some u) e d') :
    Splits g d.branches.length u d.size := by
  have hs := hg.inScope
  have hsize := hf.size_eq
  have hult := hg.current_lt u rfl
  have hopen := hs.free_open u (hg.current_free u rfl)
  refine ⟨hs.two_le, fun v => ?_, fun v => ?_, ?_, ?_, ?_⟩
  · rw [h.edge_iff u (by omega) ?_ v, hf.edge_iff]
    · have := hopen v
      simp only [this, false_or, true_and]
      omega
    · rintro ((⟨_, hne⟩ | hu | hu) | hdec)
      · exact hne rfl
      · omega
      · omega
      · exact hs.apart u hdec (hg.current_free u rfl)
  · rw [h.edge_iff d.size (by omega) ?_ v, hf.edge_iff, or_iff_right (hs.sourced.open le_rfl v)]
    · simp only [Option.some.injEq, hult.ne, false_and, false_or, true_and]
    · rintro ((⟨hfree, _⟩ | hu | hu) | hdec)
      · exact hs.not_source le_rfl (.inl hfree)
      · omega
      · omega
      · exact hs.not_source le_rfl (.inr hdec)
  · obtain ⟨n, hnode, hbranch, -⟩ := hf.exists_node
    rw [h.marks_eq (by omega), marks, hnode, Option.bind_some, hbranch]
    rfl
  · rw [h.marks_eq (by omega), hf.marks_whenTrue]
  · rw [h.marks_eq (by omega), hf.marks_whenFalse]

theorem Splits.ne_exit_of {b h : Nat} (hd : Splits g b u h) (hx : h ≤ x) : x ≠ exit :=
  Nat.ne_of_gt (hd.le.trans hx)

theorem Splits.decides {b h : Nat} {k : Continuation} (hd : Splits g b u h)
    (ht : Fragment g (h + 1) p k) (hf : Fragment g (h + 2) q k) :
    Fragment g u (Behaviour.decides b p q) k :=
  (ht.decides hf hd.test hd.marks_in hd.marks_out (hd.ne_exit_of (by omega))
    (hd.ne_exit_of (by omega))).enter hd.enter hd.marks_test (hd.ne_exit_of le_rfl)

end Draft

end Branchwise
