import Branchwise.Proofs.Flow.Follows

/-!
# Alternatives and walks

The alternatives of a conditional statement, and of the conditional statements in its else part, end
in one join.  `Joined` says that the walks from a node are the runs of an alternative, each followed
by a walk from the join.  The conditional expressions of a statement without inner statements have
alternatives in which nothing is done.
-/

namespace Branchwise

open FlowGraph Behaviour

namespace Draft

open Branchwise.Tree

variable {g : FlowGraph} {s : Scope} {targets : JumpTargets} {join u : Nat} {p q : Behaviour}
  {d d' : Draft} {kind : FlowEdgeKind} {last : Option Nat} {r : Option Nat × Draft}

theorem fst_ifEntered_eq_some (d : Draft) (u w : Nat) :
    (ifEntered u d).1 = some w ↔ w = u ∧ ∃ x, d.Edge x u := by
  have hempty : (d.graph.inEdges u).isEmpty ↔ ¬∃ x, d.Edge x u := by
    simp [inEdges, edge_iff]
  show (if (d.graph.inEdges u).isEmpty then none else some u) = some w ↔ _
  by_cases h : (d.graph.inEdges u).isEmpty
  · rw [if_pos h]
    exact ⟨nofun, fun hw => absurd hw.2 (hempty.mp h)⟩
  · rw [if_neg h, Option.some.injEq]
    exact ⟨fun hw => ⟨hw.symm, not_not.mp (mt hempty.mpr h)⟩, fun hw => hw.1.symm⟩

theorem ends_mono {next next' : Nat → List Nat → Prop} {m : Nat} {e : Completion} {bs : List Nat}
    (h : e = .normal → next m bs → ∃ m' ≤ m, next' m' bs) (hk : Ends g targets next m e bs) :
    ∃ m' ≤ m, Ends g targets next' m' e bs := by
  by_cases he : e = .normal
  · subst he
    exact h rfl hk
  · exact ⟨m, Nat.le_refl m, (ends_iff he).mp hk⟩

theorem ends_exists {next next' : Nat → List Nat → Prop} {m : Nat} {e : Completion} {bs : List Nat}
    (h : e = .normal → next m bs → ∃ m', next' m' bs) (hk : Ends g targets next m e bs) :
    ∃ m', Ends g targets next' m' e bs := by
  by_cases he : e = .normal
  · subst he
    exact h rfl hk
  · exact ⟨m, (ends_iff he).mp hk⟩

/-- The walks from a node are the runs of an alternative, and those that complete normally come to
the join. -/
structure Joined (g : FlowGraph) (targets : JumpTargets) (join : Nat) (p : Behaviour) (u : Nat)
    (d : Draft) : Prop where
  fragment : Fragment g u p (Ends g targets (g.Walks · join))
  normal : ∀ bs, p bs .normal → ∃ x, d.Edge x join
  broken : ∀ bs, p bs .break → ∃ x, d.Edge x (targets.breakTo.getD exit)

theorem Joined.grown {σ : Nat → Prop} (h : Joined g targets join p u d)
    (hg : Grown d d' σ) :
    Joined g targets join p u d' where
  fragment := h.fragment
  normal := fun bs hp => (h.normal bs hp).imp fun x he => hg.edge_of x join he
  broken := fun bs hp => (h.broken bs hp).imp fun x he => hg.edge_of x _ he

theorem Follows.joined (h : Follows g targets p u r)
    (hlast : ∀ w, r.1 = some w → ∀ v, v ∈ g.successors w ↔ v = join) (kind : FlowEdgeKind) :
    Joined g targets join p u (link r.1 join kind r.2).2 where
  fragment := by
    refine h.fragment.imp (fun bs e _ m bs' => ends_mono ?_)
      fun bs e hp m bs' => ends_exists fun he hk => ?_
    · rintro - ⟨w, hw, hleaves⟩
      exact ⟨m, Nat.le_refl m, (leaves_iff_of_single (hlast w hw) m bs').mp hleaves⟩
    · obtain ⟨w, hw⟩ := h.normal bs (he ▸ hp)
      exact ⟨m, w, hw, (leaves_iff_of_single (hlast w hw) m bs').mpr hk⟩
  normal := by
    intro bs hp
    obtain ⟨w, hw⟩ := h.normal bs hp
    exact ⟨w, (edge_link _ _ _ _ _ _).mpr (.inr ⟨hw, rfl⟩)⟩
  broken := fun bs hp => (h.broken bs hp).imp fun x he => (edge_link _ _ _ _ _ _).mpr (.inl he)

theorem Joined.skip (hs : ∀ v, v ∈ g.successors u ↔ v = join) (he : d.Edge u join) :
    Joined g targets join (ends .normal) u d where
  fragment := by
    refine ((Follows.skip d).joined (fun w hw => ?_) .fallThrough).fragment
    cases hw
    exact hs
  normal := fun _ _ => ⟨u, he⟩
  broken := fun _ h => absurd h.2 nofun

theorem Stepped.joined (h : Stepped s d (some u) r) (hs : Scoped s d) (hjoin : s.targets join)
    (hfollows : Settled g (s.move (some u) r.1) r.2 → Follows g targets p u r)
    (hset : Settled g (s.move (some u) none) (Draft.link r.1 join kind r.2).2) :
    Joined g targets join p u (Draft.link r.1 join kind r.2).2 := by
  obtain ⟨hlast, hset'⟩ := h.settled hs hjoin hset
  exact (hfollows hset').joined hlast kind

theorem Splits.joined {b h : Nat} (hd : Splits g b u h) (hfirst : Joined g targets join p (h + 1) d)
    (hsecond : Joined g targets join q (h + 2) d) :
    Joined g targets join (Behaviour.decides b p q) u d where
  fragment := hd.decides hfirst.fragment hsecond.fragment
  normal := by
    rintro bs (⟨bs', h, _⟩ | ⟨bs', h, _⟩)
    · exact hfirst.normal bs' h
    · exact hsecond.normal bs' h
  broken := by
    rintro bs (⟨bs', h, _⟩ | ⟨bs', h, _⟩)
    · exact hfirst.broken bs' h
    · exact hsecond.broken bs' h

theorem Joined.follows {j : Nat} (h : Joined g targets j p u d)
    (hmark : g.marks j = []) (hne : j ≠ exit) (hlast : ∀ w, last = some w → w = j)
    (hentered : (∃ x, d.Edge x j) → last = some j) : Follows g targets p u (last, d) where
  fragment := by
    refine h.fragment.imp (fun bs e hp m bs' => ends_mono fun he hk => ?_)
      fun bs e _ m bs' => ends_exists ?_
    · obtain ⟨m', hm', hleaves⟩ := FlowGraph.Walks.leaves_unmarked hk hmark hne
      exact ⟨m', hm'.le, j, hentered (h.normal bs (he ▸ hp)), hleaves⟩
    · rintro - ⟨w, hw, hleaves⟩
      obtain rfl := hlast w hw
      exact ⟨m + 1, hleaves.walks_unmarked hmark⟩
  normal := fun bs hp => ⟨j, hentered (h.normal bs hp)⟩
  broken := h.broken

/-! ## Statements without inner statements -/

theorem tracks_addTernary (e : Tree) : Tracks (fun current _ => addTernary current e)
    fun b => decides b (ends .normal) (ends .normal) := by
  intro s d u targets g hg _ hset
  have hs := hg.inScope
  have h1 := hg.forks e.label e.children[0]? e.children[1]? none
  have hf := forked_addTwoWay d e.label (some u) e.children[0]? e.children[1]? none
  unfold addTernary at hset ⊢
  dsimp only at hset ⊢
  generalize (addTwoWay e.label (some u) e.children[0]? e.children[1]? none d).2 = d1
    at h1 hf hset ⊢
  have hsize := hf.size_eq
  have hset1 := hset.before (h1.evolves hs).2.1 (hg.joinArms hsize e.label.line)
  let d4 := (link (some (d.size + 2)) d1.size .fallThrough (link (some (d.size + 1)) d1.size
    .fallThrough (d1.push (d1.point .join e.label.line))).2).2
  have hsize4 : d4.size = d1.size + 1 := by rw [size_link, size_link, size_push]
  have hskip (x : Nat) (hx : x = d.size + 1 ∨ x = d.size + 2) :
      Joined g targets d1.size (ends .normal) x d4 := by
    have hedge (v : Nat) : d4.Edge x v ↔ v = d1.size := by
      have hult := hg.current_lt u rfl
      rw [edge_link, edge_link, edge_push, hf.edge_iff,
        or_iff_right (hs.sourced.open (show d.size ≤ x by omega) v)]
      simp only [Option.some.injEq]
      omega
    refine Joined.skip (fun v => ?_) ((hedge _).mpr rfl)
    rw [hset.edge_iff x (show x < d4.size by omega)
      (hs.not_source_new (by omega) (some_ne_some (by omega))) v, hedge]
  refine ((hset1.splits hg hf).joined (hskip _ (.inl rfl)) (hskip _ (.inr rfl))).follows ?_
    (hs.ne_exit (by omega)) (fun w hw => (Option.some.inj hw).symm) fun _ => rfl
  rw [hset.marks_eq (show d1.size < d4.size by omega), marks_link, marks_link, marks_push_self]
  rfl

theorem tracks_addTernaries (es : List Tree) :
    Tracks (fun current _ => addTernaries current es) (choices es.length) := by
  induction es with
  | nil => exact fun _ d _ _ _ _ _ _ => Follows.skip d
  | cons e es ih =>
    intro s d u targets g hg hexit hset
    simp only [addTernaries_cons] at hset ⊢
    exact (tracks_addTernary e).andThen ih (draws_addTernary e) (draws_addTernaries es)
      (fun current _ d => length_branches_addTernary current d e) s d u targets g hg hexit hset

theorem tracks_addLeafNode {t : Tree} (hgoto : t.kind ≠ .goto) :
    Tracks (addLeafNode t) fun _ => ends t.kind.completion := by
  intro s d u targets g hg _ hset
  have hs := hg.inScope
  have h := hg.visit (d.stated .statement t.label (shownText t.label)) rfl rfl rfl ⟨nofun, nofun⟩
  have hvisit (hset : Settled g _ _) :=
    hset.visit hg (m := d.stated .statement t.label (shownText t.label)) (k := .fallThrough) rfl
  unfold addLeafNode at hset ⊢
  dsimp only at hset ⊢
  generalize (link (some u) d.size .fallThrough (d.push _)).2 = d2 at h hvisit hset ⊢
  have hs2 := (h.evolves hs).2.1
  -- A statement that jumps has one edge, to where its completion leads.
  have hjump (c : Completion) (dst : Nat) (kind : FlowEdgeKind) (hdst : s.targets dst)
      (hne : c ≠ .normal) (hends : ∀ next m bs, Ends g targets next m c bs ↔ g.Walks m dst bs)
      (hbreak : c = .break → dst = targets.breakTo.getD exit)
      (hset : Settled g (s.move (some u) none) (addEdge d.size dst kind none d2).2) :
      Follows g targets (ends c) u (none, (addEdge d.size dst kind none d2).2) := by
    obtain ⟨henter, hmark⟩ := hvisit (hset.before hs2 (hg.jump hdst kind))
    have hsingle := hset.single (hs2.free_lt d.size (.inr rfl)) (hs2.free_open d.size (.inr rfl))
      (hs.not_source_new le_rfl nofun)
    refine Follows.enter ⟨Fragment.jump hsingle (hends _), fun bs h => absurd h.2.symm hne,
      fun bs h => ?_⟩ henter hmark (hs.ne_exit le_rfl)
    rw [← hbreak h.2.symm]
    exact ⟨d.size, (edge_addEdge _ _ _ _ _ _ _).mpr (.inr ⟨rfl, rfl⟩)⟩
  cases hk : t.kind with
  | «return» =>
    rw [hk] at hset
    exact hjump .return exit _ hg.exit_target nofun (fun _ _ _ => Iff.rfl) nofun hset
  | «break» =>
    rw [hk] at hset
    exact hjump .break _ _ (hg.getD_target hg.break_target) nofun (fun _ _ _ => Iff.rfl)
      (fun _ => rfl) hset
  | «continue» =>
    rw [hk] at hset
    exact hjump .continue _ _ (hg.getD_target hg.continue_target) nofun (fun _ _ _ => Iff.rfl)
      nofun hset
  | goto => exact absurd hk hgoto
  | compound | ifElse | whileLoop | doLoop | forLoop | switch | case | default | label | call
  | declaration | expression | ternary =>
    rw [hk] at hset
    obtain ⟨henter, hmark⟩ := hvisit (hset.within (s.move_within_visit (some u) d.size))
    exact (Follows.skip d2).enter henter hmark (hs.ne_exit le_rfl)

theorem tracks_addLeaf_choices {t : Tree} (hgoto : t.kind ≠ .goto) :
    Tracks (addLeaf t) fun b => (choices t.ternaryCount b).andThen (ends t.kind.completion) := by
  intro s d u targets g hg hexit hset
  rw [addLeaf_eq] at hset ⊢
  exact (tracks_addTernaries (t.collect .ternary)).andThen (tracks_addLeafNode hgoto)
    (draws_addTernaries _) (draws_addLeafNode t) (fun current _ d =>
      (recorded_addTernaries (p := True) current d (kind_ne_switch_of_mem_collect t)).branches_eq)
    s d u targets g hg hexit hset

theorem tracks_addLeaf {t : Tree} (hplain : t.isPlain) (hgoto : t.kind ≠ .goto) :
    Tracks (addLeaf t) fun b => (Decides t b).andThen (ends t.kind.completion) := by
  simp only [decides_eq_choices t _ (ternariesApart_of_isPlain hplain)]
  exact tracks_addLeaf_choices hgoto

/-! ## Chains of alternatives -/

def Joins (join : Nat) (draw : Option Nat → JumpTargets → Drawing Unit) (runs : Nat → Behaviour) :
    Prop :=
  ∀ (s : Scope) (d : Draft) (u : Nat) (targets : JumpTargets) (g : FlowGraph),
    Guided s d (some u) targets True → s.targets join → g.marks exit = [] →
    Settled g (s.move (some u) none) (draw (some u) targets d).2 →
    Joined g targets join (runs d.branches.length) u (draw (some u) targets d).2

section Chains

variable {draw : Option Nat → JumpTargets → Drawing (Option Nat)} {runs runs' : Nat → Behaviour}
  {l l' : Label} {t : Tree} {ts ts' : List Tree} {id n : Nat}

theorem Tracks.leadTo (h : Tracks draw runs) (hd : Draws True draw) :
    Joins join (leadTo join draw) runs :=
  fun s d u targets g hg hjoin hexit hset =>
    (hd s d (some u) targets hg).joined hg.inScope hjoin (h s d u targets g hg hexit) hset

theorem tracks_skip : Tracks skip fun _ => ends .normal :=
  fun _ d _ _ _ _ _ _ => Follows.skip d

theorem Joins.choice {rest : Option Nat → JumpTargets → Drawing Unit}
    (hrest : Joins join rest runs') (hdrest : DrawsChain True join rest)
    (h : Tracks draw runs) (hd : Draws True draw)
    (hn : ∀ current targets d, (draw current targets d).2.branches.length = d.branches.length + n)
    (l : Label) (first other : Option Tree) :
    Joins join (choice join l first other draw rest)
      fun b => decides b (runs (b + 2)) (runs' (b + 2 + n)) := by
  intro s d u targets g hg hjoin hexit hset
  have hf := forked_addTwoWay d l (some u) first other none
  have hg1 := hg.firstArm l first other
  have h2 := hd _ _ _ targets hg1
  have h3 := hg.thenPart hd hjoin l first other
  have hg3 := h3.guided hg
  have h4 := (hdrest _ _ _ targets hg3 hjoin).steps
  have hset4 := hset.within (h3.within hg.inScope none)
  have hset3 := (hset4.before hg3.inScope h4).within hg.otherArm
  have hset1 := (h2.settled hg1.inScope (.inl hjoin) hset3).2.before hg1.inScope h2.steps
  have hfirst := h2.joined hg1.inScope (.inl hjoin) (h _ _ _ targets g hg1 hexit) hset3
  have hsecond := hrest _ _ _ targets g hg3 hjoin hexit hset4
  have hcount : (Draft.leadTo join draw (some (d.size + 1)) targets
      (addTwoWay l (some u) first other none d).2).2.branches.length =
        d.branches.length + 2 + n := by
    unfold Draft.leadTo
    rw [branches_link, hn, hf.branches_eq]
  rw [hf.branches_eq] at hfirst
  rw [hcount] at hsecond
  exact (hset1.splits hg hf).joined (hfirst.grown (h4.evolves hg3.inScope).1) hsecond

theorem joins_chain_nil : Joins join (addChain join l [] id)
    fun b => decides b (ends .normal) (ends .normal) := by
  rw [addChain_nil]
  exact (tracks_skip.leadTo draws_skip).choice (n := 0) draws_skip.leadTo tracks_skip draws_skip
    (fun _ _ _ => rfl) l none none

section Then

variable (ht : Tracks (addTree t id) (Runs t)) {inSwitch : Bool} (hts : t.isStructured inSwitch)
include ht hts

theorem joins_chain_one : Joins join (addChain join l [t] id)
    fun b => decides b (Runs t (b + 2)) (ends .normal) := by
  rw [addChain_one]
  exact (tracks_skip.leadTo draws_skip).choice draws_skip.leadTo ht
    ((draws_addTree t id).mono fun _ => trivial)
    (fun current targets d => length_branches_addTree id current targets d hts) l (some t) none

theorem joins_chain_chain (hk : l'.kind = .ifElse)
    (hchain : Joins join (addChain join l' ts' (id + t.size + 1)) (RunsIf ts')) :
    Joins join (addChain join l (t :: .node l' ts' :: ts) id)
      fun b => decides b (Runs t (b + 2)) (RunsIf ts' (b + 2 + t.branchCount)) := by
  rw [addChain_chain hk]
  exact hchain.choice ((drawsChain_addChain l' ts' _ join).mono fun _ => trivial) ht
    ((draws_addTree t id).mono fun _ => trivial)
    (fun current targets d => length_branches_addTree id current targets d hts) l _ _

theorem joins_chain_else (hk : l'.kind ≠ .ifElse)
    (helse : Tracks (addTree (.node l' ts') (id + t.size)) (Runs (.node l' ts'))) :
    Joins join (addChain join l (t :: .node l' ts' :: ts) id)
      fun b => decides b (Runs t (b + 2)) (Runs (.node l' ts') (b + 2 + t.branchCount)) := by
  rw [addChain_else hk]
  have hd := (draws_addTree (.node l' ts') (id + t.size)).mono fun _ => trivial
  exact (helse.leadTo hd).choice hd.leadTo ht ((draws_addTree t id).mono fun _ => trivial)
    (fun current targets d => length_branches_addTree id current targets d hts) l _ _

end Then

theorem tracks_ifElse (hk : l.kind = .ifElse)
    (hchain : ∀ join, Joins join (addChain join l ts (id + 1)) (RunsIf ts)) :
    Tracks (addTree (.node l ts) id) (RunsIf ts) := by
  intro s d u targets g hg hexit hset
  rw [addTree_ifElse hk] at hset ⊢
  dsimp only at hset ⊢
  obtain ⟨-, hg1⟩ := hg.point .join l.line ⟨nofun, nofun⟩
  have h2 := ((drawsChain_addChain l ts (id + 1) d.size).mono fun _ => trivial) _ _ _ targets hg1
    (.inr rfl)
  have hset1 := (hset.within (ifEntered_within s (some u) d.size _)).within hg.join_within
  have hjoined := hchain d.size _ _ u targets g hg1 (.inr rfl) hexit hset1
  have hset0 := hset1.before hg1.inScope h2.steps
  generalize (addChain d.size l ts (id + 1) (some u) targets _).2 = d2 at hjoined ⊢
  refine hjoined.follows ?_ (hg.inScope.ne_exit le_rfl)
    (fun w hw => ((fst_ifEntered_eq_some d2 d.size w).mp hw).1)
    fun h => (fst_ifEntered_eq_some d2 d.size _).mpr ⟨rfl, h⟩
  rw [hset0.marks_eq (by rw [size_push]; exact Nat.lt_succ_self _), marks_push_self]
  rfl

end Chains

end Draft

end Branchwise
