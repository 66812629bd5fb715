import Branchwise.Proofs.Flow.Follows

/-!
# Loops and walks

The walks through the part of a graph that was drawn for a loop are its runs.  A walk goes around
the loop through the arm of the body and back to the test, or, where the test comes last, to the
top; it leaves the loop through the other arm or where the body breaks out of it.
-/

namespace Branchwise

open FlowGraph Behaviour

namespace Draft

open Branchwise.Tree

variable {g : FlowGraph} {s : Scope} {targets : JumpTargets} {d d' : Draft} {last : Option Nat}
  {b h m n u x point id : Nat} {bs : List Nat} {switch : Option SwitchContext} {l : Label}
  {ts : List Tree} {body : Behaviour} {p : Prop}

/-! ## The shape of a loop -/

/-- The test of a loop comes after `u` and has an arm that leads to the end `x` of the loop. -/
structure Turns (g : FlowGraph) (b u h x : Nat) : Prop extends Splits g b u h where
  stop : ∀ v, v ∈ g.successors (h + 2) ↔ v = x
  marks_exit : g.marks x = []
  ne_exit : x ≠ exit

/-- The end of a body, and the point where it is continued, lead back to the test: the point is the
test or a node in front of it. -/
structure Backs (g : FlowGraph) (last : Option Nat) (point h : Nat) : Prop where
  last_to : ∀ w, last = some w → ∀ v, v ∈ g.successors w ↔ v = point
  point_to : point = h ∨
    g.marks point = [] ∧ point ≠ exit ∧ ∀ v, v ∈ g.successors point ↔ v = h

section

variable (hb : Backs g last point h)
include hb

theorem Backs.walks (hw : g.Walks m point bs) : ∃ m' ≤ m, g.Walks m' h bs := by
  rcases hb.point_to with rfl | ⟨hmark, hne, hsucc⟩
  · exact ⟨m, Nat.le_refl m, hw⟩
  · obtain ⟨m', hm', hleaves⟩ := hw.leaves_unmarked hmark hne
    exact ⟨m', hm'.le, (leaves_iff_of_single hsucc m' bs).mp hleaves⟩

theorem Backs.of_walks (hw : g.Walks m h bs) : ∃ m', g.Walks m' point bs := by
  rcases hb.point_to with rfl | ⟨hmark, _, hsucc⟩
  · exact ⟨m, hw⟩
  · exact ⟨m + 1, ((leaves_iff_of_single hsucc m bs).mpr hw).walks_unmarked hmark⟩

theorem Backs.of_ends {breakTo : Option Nat} {e : Completion} (he : e = .normal ∨ e = .continue)
    (hk : Ends g ⟨breakTo, some point, switch⟩ (Leads g last) m e bs) :
    ∃ m' ≤ m, g.Walks m' h bs := by
  rcases he with rfl | rfl
  · obtain ⟨w, hw, hleaves⟩ := hk
    exact hb.walks ((leaves_iff_of_single (hb.last_to w hw) m bs).mp hleaves)
  · exact hb.walks hk

theorem Backs.ends {breakTo : Option Nat} {e : Completion} (he : e = .normal ∨ e = .continue)
    (hlast : e = .normal → ∃ w, last = some w) (hw : g.Walks m h bs) :
    ∃ m', Ends g ⟨breakTo, some point, switch⟩ (Leads g last) m' e bs := by
  obtain ⟨m', hw'⟩ := hb.of_walks hw
  rcases he with rfl | rfl
  · obtain ⟨w, hlast⟩ := hlast rfl
    exact ⟨m', w, hlast, (leaves_iff_of_single (hb.last_to w hlast) m' bs).mpr hw'⟩
  · exact ⟨m', hw'⟩

end

section Turns

variable (hl : Turns g b u h x) (hb : Backs g last point h)
  (hlast : ∀ bs, body bs .normal → ∃ w, last = some w)
include hl hb hlast

theorem Turns.rounds (targets : JumpTargets) :
    Fragment.Rounds g h body (Ends g ⟨some x, some point, switch⟩ (Leads g last))
      (Ends g targets (Leads g (some x))) where
  back := by
    intro bs e _ he m bs' hk
    obtain ⟨m', hm', hw⟩ := hb.of_ends he hk
    obtain ⟨i, hi, hleaves⟩ := hw.leaves_unmarked hl.marks_test (hl.ne_exit_of le_rfl)
    exact ⟨i, by omega, hleaves⟩
  again := fun bs e hbs he m bs' hn =>
    hb.ends he (fun hnormal => hlast bs (hnormal ▸ hbs)) (hn.walks_unmarked hl.marks_test)
  leaves := by
    intro m bs hw
    obtain ⟨m', hm', hleaves⟩ := FlowGraph.Walks.leaves_unmarked hw hl.marks_exit hl.ne_exit
    exact ⟨m', hm'.le, x, rfl, hleaves⟩
  broken := by
    rintro m bs ⟨w, hw, hleaves⟩
    cases hw
    exact ⟨m + 1, hleaves.walks_unmarked hl.marks_exit⟩
  return_iff := fun _ _ => Iff.rfl

theorem Turns.fragment (targets : JumpTargets)
    (hbody : Fragment g (h + 1) body (Ends g ⟨some x, some point, switch⟩ (Leads g last))) :
    Fragment g h (whileLoop b body) (Ends g targets (Leads g (some x))) := by
  have hskip : Fragment g x (ends .normal) (Ends g targets (Leads g (some x))) :=
    Fragment.skip fun m bs => leads_some g x m bs
  exact Fragment.whileLoop (hl.rounds hb hlast targets) hbody
    (hskip.enter hl.stop hl.marks_exit hl.ne_exit) hl.test hl.marks_in hl.marks_out
    (hl.ne_exit_of (by omega)) (hl.ne_exit_of (by omega))

end Turns

theorem Follows.of_loop {p : Behaviour} (h : Fragment g u p (Ends g targets (Leads g (some x))))
    (hends : ∀ bs e, p bs e → e = .normal ∨ e = .return) : Follows g targets p u (some x, d) where
  fragment := h
  normal := fun _ _ => ⟨x, rfl⟩
  broken := fun bs hp => absurd (hends bs _ hp) (by simp)

/-! ## Loops with the test in front -/

theorem Turns.follows {r : Option Nat × Draft} (hl : Turns g b u h x) (hb : Backs g r.1 point h)
    (hbody : Follows g ⟨some x, some point, switch⟩ body (h + 1) r) :
    Follows g targets (whileLoop b body) u (some x, d) :=
  (Follows.of_loop (hl.fragment hb hbody.normal targets hbody.fragment) fun _ _ h =>
    whileLoop_completion h).enter hl.enter hl.marks_test (hl.ne_exit_of le_rfl)

/-- Control has come out of the body of a loop, and the other arm of its test was led to the end. -/
theorem Guided.turns (hg : Guided s d (some u) targets p) (l : Label) (body : Option Tree)
    (h : Steps (s.loop (some u) d.size)
      (addTwoWay l (some u) body none (some d.size) (d.push (d.point .loopExit l.line))).2
      ((s.loop (some u) d.size).move (some (d.size + 2)) none) d')
    (hset : Settled g (s.move (some u) (some d.size))
      (link (some (d.size + 3)) d.size .fallThrough d').2) :
    Turns g d.branches.length u (d.size + 1) d.size ∧
      Settled g ((s.loop (some u) d.size).move (some (d.size + 2)) none) d' := by
  have hs := hg.inScope
  have hl := hg.looped l body
  obtain ⟨-, hg1⟩ := hg.point .loopExit l.line ⟨nofun, nofun⟩
  have hf := forked_addTwoWay (d.push (d.point .loopExit l.line)) l (some u) body none (some d.size)
  have hs' := (h.evolves hl.guided.inScope).2.1
  have hset' := hset.before hs' (hl.finish d' h)
  have hset2 := hset'.before hl.guided.inScope h
  rw [Scope.loop, ← size_push d (d.point .loopExit l.line)] at hset2
  have hset1 := hset2.before hg1.inScope (hg1.forks l body none (some d.size))
  have hfree : ((s.loop (some u) d.size).move (some (d.size + 2)) none).free (d.size + 3) :=
    .inl ⟨.inr (.inr rfl), some_ne_some (by omega)⟩
  have hsplits := hset2.splits hg1 hf
  rw [size_push] at hsplits
  refine ⟨⟨hsplits, hset.single (hs'.free_lt _ hfree) (hs'.free_open _ hfree)
    (hs.not_source_new (by omega) (some_ne_some (by omega))), ?_, hs.ne_exit le_rfl⟩, hset'⟩
  rw [hset1.marks_eq (by rw [size_push]; omega), marks_push_self]
  rfl

section

variable (hbody : Tracks (addFirst ts (id + 1)) (RunsAll ts))
include hbody

theorem tracks_whileLoop (hk : l.kind = .whileLoop) :
    Tracks (addTree (.node l ts) id) fun b => whileLoop b (RunsAll ts (b + 2)) := by
  intro s d u targets g hg hexit hset
  rw [addTree_whileLoop hk] at hset ⊢
  dsimp only at hset ⊢
  have hl := hg.looped l ts[0]?
  have hg2 := hl.guided.inLoop (.inl (.inr rfl)) (.inr rfl)
  have h3 := (draws_addFirst ts (id + 1)).mono (fun _ => trivial) _ _ _ _ hg2
  obtain ⟨hturns, hset4⟩ := hg.turns l ts[0]? (h3.link hg2.inScope (.inr rfl) .backEdge) hset
  obtain ⟨hlast, hset3⟩ := h3.settled hg2.inScope (.inr rfl) hset4
  have hrounds := hbody _ _ _ _ g hg2 hexit hset3
  rw [(forked_addTwoWay ..).branches_eq] at hrounds
  exact hturns.follows ⟨hlast, .inl rfl⟩ hrounds

theorem tracks_forLoop (hk : l.kind = .forLoop) :
    Tracks (addTree (.node l ts) id) fun b => whileLoop b (RunsAll ts (b + 2)) := by
  intro s d u targets g hg hexit hset
  rw [addTree_forLoop hk] at hset ⊢
  dsimp only at hset ⊢
  have hl := hg.looped l ts[0]?
  have hbranches := (forked_addTwoWay (d.push (d.point .loopExit l.line)) l (some u) ts[0]? none
    (some d.size)).branches_eq
  have hturns := fun d'' (h : Steps _ _ _ d'') => hg.turns (g := g) l ts[0]? h
  generalize (addTwoWay l (some u) ts[0]? none (some d.size) _).2 = d2 at hl hbranches hturns hset ⊢
  obtain ⟨h3, hg3⟩ := hl.guided.point .forStep l.line ⟨nofun, nofun⟩
  rw [← hl.size_eq] at hset ⊢
  have hg3' := hg3.inLoop (.inl (.inl (.inr rfl))) (.inr rfl)
  have h4 := (draws_addFirst ts (id + 1)).mono (fun _ => trivial) _ _ _ _ hg3'
  have h5 := h4.link hg3.inScope (.inr rfl) .fallThrough
  obtain ⟨hturns, hset6⟩ := hturns _
    ((h3.trans h5).trans (hl.guided.leavePoint (.inr rfl) .backEdge)) hset
  have hs5 := (h5.evolves hg3.inScope).2.1
  obtain ⟨hlast, hset4⟩ := h4.settled hg3.inScope (.inr rfl)
    (hset6.before hs5 (hl.guided.leavePoint (.inr rfl) .backEdge))
  have hset3 := hset4.before hg3.inScope h4.steps
  have hrounds := hbody _ _ _ _ g hg3' hexit hset4
  change Follows _ _ (RunsAll ts d2.branches.length) _ _ at hrounds
  rw [hbranches] at hrounds
  have hsize := hl.size_eq
  have hfree :
      (((s.loop (some u) d.size).add d2.size).move (some (d.size + 2)) none).free d2.size :=
    .inl ⟨.inr rfl, some_ne_some (by omega)⟩
  refine hturns.follows ⟨hlast, .inr ⟨?_, hg.inScope.ne_exit (by omega), hset6.single
    (hs5.free_lt _ hfree) (hs5.free_open _ hfree)
    (hl.guided.inScope.not_source_new le_rfl nofun)⟩⟩ hrounds
  rw [hset3.marks_eq (by rw [size_push]; omega), marks_push_self]
  rfl

end

/-! ## Loops with the test at the end -/

/-- Control has come from the body of a loop to its test, and the arms of the test were led back and
to the end. -/
theorem Opened.turns {d'' : Draft} (ho : Opened s d (some u) targets p l d')
    (h : Steps (s.enter (some u) d.size) d' ((s.enter (some u) d.size).move (some d.size) none) d'')
    (hg : Guided s d (some u) targets p) (body : Option Tree)
    (hset : Settled g (s.move (some u) (some (d.size + 1))) (link (some (d''.size + 2)) (d.size + 1)
      .fallThrough (link (some (d''.size + 1)) d.size .backEdge
        (addTwoWay l (some (d.size + 2)) body none none d'').2).2).2) :
    Turns g d''.branches.length (d.size + 2) d''.size (d.size + 1) ∧
      (∀ v, v ∈ g.successors (d''.size + 1) ↔ v = d.size) ∧
      Settled g ((s.enter (some u) d.size).move (some d.size) none) d'' := by
  have hs := hg.inScope
  have hg' := ho.atTest h
  have hforks := hg'.forks l body none none
  have hf := forked_addTwoWay d'' l (some (d.size + 2)) body none none
  have hset3 := hset.before (hforks.evolves hg'.inScope).2.1 (ho.finish h hg body)
  have hset2 := hset3.before hg'.inScope hforks
  have hopen := (hforks.evolves hg'.inScope).2.1.free_open
  generalize (addTwoWay l (some (d.size + 2)) body none none d'').2 = d3 at hf hset3 hopen hset
  have hsize := hf.size_eq
  have hsize' := ho.size_eq
  have hgrown := (h.evolves ho.guided.inScope).1
  have hle := hgrown.size_le
  have harm (x v : Nat) (hx : x = d''.size + 1 ∨ x = d''.size + 2) : v ∈ g.successors x ↔
      x = d''.size + 1 ∧ v = d.size ∨ x = d''.size + 2 ∧ v = d.size + 1 := by
    rw [hset.edge_iff x (by rw [size_link, size_link]; omega)
      (hs.not_source_new (by omega) (some_ne_some (by omega))) v, edge_link, edge_link,
      or_assoc, or_iff_right (hopen x (.inr hx) v)]
    simp only [Option.some.injEq, eq_comm (b := x)]
  refine ⟨⟨hset3.splits hg' hf, fun v => ?_, ?_, hs.ne_exit (by omega)⟩, fun v => ?_, hset2⟩
  · rw [harm _ v (.inr rfl)]
    omega
  · rw [hset2.marks_eq (by omega), hgrown.marks_eq (by omega),
      ho.marks_eq _ (by omega) (by omega)]
  · rw [harm _ v (.inl rfl)]
    omega

theorem tracks_doLoop (hbody : Tracks (addFirst ts (id + 1)) (RunsAll ts)) (hk : l.kind = .doLoop)
    (hn : ∀ current targets d,
      (addFirst ts (id + 1) current targets d).2.branches.length = d.branches.length + n) :
    Tracks (addTree (.node l ts) id) fun b => doLoop (b + n) (RunsAll ts b) := by
  intro s d u targets g hg hexit hset
  rw [addTree_doLoop hk] at hset ⊢
  dsimp only at hset ⊢
  have hs := hg.inScope
  have ho := hg.opened l
  dsimp only at ho
  generalize push (link (some u) d.size .fallThrough _).2 _ = d4 at ho hset ⊢
  have hg4 := ho.guided.inLoop (.inr (.inl rfl)) (.inr (.inr rfl))
  have h5 := (draws_addFirst ts (id + 1)).mono (fun _ => trivial) _ _ _ _ hg4
  have hfollows := hbody _ _ _ _ g hg4 hexit
  have hcount := hn (some d.size) ⟨some (d.size + 1), some (d.size + 2), targets.switch⟩ d4
  generalize addFirst ts (id + 1) (some d.size) _ d4 = r5 at h5 hfollows hcount hset ⊢
  obtain ⟨hturns, htop, hset6⟩ := ho.turns (h5.link hg4.inScope (.inr (.inr rfl)) .fallThrough) hg
    ts[0]? hset
  obtain ⟨hlast, hset5⟩ := h5.settled hg4.inScope (.inr (.inr rfl)) hset6
  have hset4 := hset5.before hg4.inScope h5.steps
  have hmarks (x : Nat) (hle : d.size ≤ x) (hlt : x < d4.size) : g.marks x = [] := by
    rw [hset4.marks_eq hlt, ho.marks_eq x hle hlt]
  rw [branches_link, hcount, ho.branches_eq] at hturns
  have hrounds := hfollows hset5
  rw [ho.branches_eq] at hrounds
  have hsize := ho.size_eq
  have hback : Backs g r5.1 (d.size + 2) (link r5.1 (d.size + 2) .fallThrough r5.2).2.size :=
    ⟨hlast, .inr ⟨hmarks _ (by omega) (by omega), hs.ne_exit (by omega), hturns.enter⟩⟩
  have hmark := hmarks d.size le_rfl (by omega)
  have hloop := Fragment.doLoop (hturns.rounds hback hrounds.normal targets) hrounds.fragment
    (hturns.fragment hback hrounds.normal targets
      (hrounds.fragment.enter htop hmark (hs.ne_exit le_rfl)))
  refine Follows.of_loop (hloop.enter (fun v => ?_) hmark (hs.ne_exit le_rfl)) fun _ _ h =>
    doLoop_completion h
  have hlt := hg.current_lt u rfl
  have hfree := hg.current_free u rfl
  rw [hset4.edge_iff u (by omega) ?_ v, ho.edge_iff, or_iff_right (hs.free_open u hfree v),
    and_iff_right rfl]
  rintro ((⟨_, hne⟩ | hu) | hdec)
  · exact hne rfl
  · omega
  · exact hs.apart u hdec hfree

end Draft

end Branchwise
