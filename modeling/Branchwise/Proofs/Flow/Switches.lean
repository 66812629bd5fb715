import Branchwise.Proofs.Flow.Alternatives

/-!
# Switches and walks

Control falls from the statements of one label of a switch into those of the next.  `Entered` says
that the arms drawn for a part of its body are its labels, each with the runs that start there;
`Follows` covers what is reached from the front.
-/

namespace Branchwise

open FlowGraph Behaviour List

namespace Draft

open Branchwise.Tree

variable {g : FlowGraph} {s : Scope} {targets : JumpTargets} {d d' : Draft}
  {decision default case id u : Nat} {current : Option Nat} {labels : List (Nat × Label × Tree)}
  {l : Label} {ts : List Tree} {r : Option Nat × Draft} {labelled : Prop} {b : Branch}

/-! ## The branches of labels -/

/-- The switch around a part of its body: its decision, the branch of its default, and that of the
first case label in the part. -/
structure Around (targets : JumpTargets) (decision default case : Nat)
    (labels : List (Nat × Label × Tree)) : Prop where
  exists_context : ∃ ctx, targets.switch = some ctx ∧ ctx.default.id = default ∧
    (∀ b ∈ ctx.branches, b.decisionNode = decision) ∧ CasesAt ctx case labels

theorem Around.mono {case' : Nat} {labels' : List (Nat × Label × Tree)}
    (h : Around targets decision default case labels)
    (hcases : ∀ ctx, CasesAt ctx case labels → CasesAt ctx case' labels') :
    Around targets decision default case' labels' := by
  obtain ⟨ctx, hctx, hid, hdec, hat⟩ := h.exists_context
  exact ⟨ctx, hctx, hid, hdec, hcases ctx hat⟩

/-! ## Labels -/

/-- A label was drawn, and in front of it the arm of a switch, if it belongs to one. -/
structure LabelAdded (d : Draft) (current : Option Nat) (arm : Option Branch) (d' : Draft) :
    Prop where
  lt_size : d.size < d'.size
  branches_eq : d'.branches.length = d.branches.length
  edge_iff : ∀ y v, d'.Edge y v ↔ d.Edge y v ∨ (current = some y ∧ v = d.size) ∨
    ∃ b, arm = some b ∧ (y = b.decisionNode ∧ v = d.size + 1 ∨ y = d.size + 1 ∧ v = d.size)
  marks_label : d'.graph.marks d.size = []
  arm_lt : ∀ b, arm = some b → d.size + 1 < d'.size
  marks_arm : ∀ b, arm = some b → d'.graph.marks (d.size + 1) = [b.id]

theorem labelAdded_addSwitchLabel (l : Label) (id : Nat) (d : Draft) (current : Option Nat)
    (switch : Option SwitchContext) :
    LabelAdded d current (switch.bind (armOf · l id)) (addSwitchLabel l id current switch d).2 := by
  obtain ⟨text, kind, label, heq⟩ := exists_addSwitchLabel l id current switch d
  rw [heq]
  have hsize : (addLabelNode l text current d).size = d.size + 1 := by
    rw [addLabelNode, size_link, size_push]
  have h : LabelAdded d current none (addLabelNode l text current d) := by
    refine ⟨by omega, ?_, fun y v => ?_, ?_, by simp, by simp⟩
    · rw [addLabelNode, branches_link, branches_push]
    · rw [addLabelNode, edge_link, edge_push]
      simp
    · rw [addLabelNode, marks_link, marks_push_self]
      rfl
  generalize addLabelNode l text current d = d1 at h hsize ⊢
  cases switch.bind (armOf · l id) with
  | none => exact h
  | some b =>
    dsimp only [addLabelArm]
    have hedge : ∀ y v, (link (some d1.size) d.size .fallThrough
        (addArm b kind label d1).2).2.Edge y v ↔ d.Edge y v ∨ (current = some y ∧ v = d.size) ∨
        ∃ b', some b = some b' ∧
          (y = b'.decisionNode ∧ v = d.size + 1 ∨ y = d.size + 1 ∧ v = d.size) := by
      intro y v
      rw [edge_link, edge_addArm, h.edge_iff, hsize, Option.some.injEq]
      simp only [reduceCtorEq, false_and, exists_false, or_false, Option.some.injEq,
        exists_eq_left', eq_comm (b := y)]
      tauto
    refine ⟨?_, ?_, hedge, ?_, fun _ _ => ?_, fun b' hb => ?_⟩
    · rw [size_link, size_addArm]
      omega
    · rw [branches_link, length_branches_addArm, h.branches_eq]
    · have hm := (grown_push d1 (d1.arm b) fun _ => False).marks_eq h.lt_size
      rw [marks_link]
      exact hm.trans h.marks_label
    · rw [size_link, size_addArm]
      omega
    · cases hb
      rw [marks_link, ← hsize, marks_addArm_self]

theorem armOf_bind_decides (hg : Guided s d current targets True)
    (hb : targets.switch.bind (armOf · l id) = some b) : s.Decides b.decisionNode := by
  obtain ⟨ctx, hctx, harm⟩ := Option.bind_eq_some_iff.mp hb
  exact ⟨b, hg.known trivial ctx hctx b (mem_of_armOf harm), rfl⟩

theorem LabelAdded.enter (hadded : LabelAdded d (some u) (targets.switch.bind (armOf · l id)) d')
    (hg : Guided s d (some u) targets True) (hset : Settled g (s.move (some u) (some d.size)) d')
    (v : Nat) : v ∈ g.successors u ↔ v = d.size := by
  have hs := hg.inScope
  have hult := hg.current_lt u rfl
  have hfree := hg.current_free u rfl
  rw [hset.edge_iff u (hult.trans hadded.lt_size)
    (hs.not_source_move hfree (some_ne_some hult.ne')) v, hadded.edge_iff,
    or_iff_right (hs.free_open u hfree v)]
  refine ⟨?_, fun hv => .inl ⟨rfl, hv⟩⟩
  rintro (⟨_, hv⟩ | ⟨b, hb, ⟨hu, _⟩ | ⟨hu, _⟩⟩)
  · exact hv
  · exact absurd hfree (hu ▸ hs.apart _ (armOf_bind_decides hg hb))
  · omega

theorem tracks_caseOrDefault (hk : l.kind = .case ∨ l.kind = .default)
    (hbody : Tracks (addSequence ts (id + 1)) (RunsAll ts)) :
    Tracks (addTree (.node l ts) id) (RunsAll ts) := by
  intro s d u targets g hg hexit hset
  rw [addTree_caseOrDefault hk] at hset ⊢
  have h1 := hg.addSwitchLabel trivial l id
  have hadded := labelAdded_addSwitchLabel l id d (some u) targets.switch
  generalize (addSwitchLabel l id (some u) targets.switch d).2 = d1 at h1 hadded hset ⊢
  have hg1 := h1.guided hg
  have h2 := (draws_addSequence ts (id + 1)).mono (fun _ => trivial) _ _ _ targets hg1
  have hset2 := hset.within (h1.within hg.inScope _)
  have hset1 := hset2.before hg1.inScope h2.steps
  have hfollows := hbody _ _ _ targets g hg1 hexit hset2
  rw [hadded.branches_eq] at hfollows
  refine hfollows.enter (hadded.enter hg hset1) ?_ (hg.inScope.ne_exit le_rfl)
  rw [hset1.marks_eq hadded.lt_size, hadded.marks_label]

/-! ## Entering the body of a switch -/

/-- The new arms of a decision are the labels of a part of the body of its switch, with the runs
that start there. -/
structure Entered (g : FlowGraph) (targets : JumpTargets) (decision : Nat) (p : Nat → Behaviour)
    (d : Draft) (r : Option Nat × Draft) : Prop where
  exists_arm : ∀ v, r.2.Edge decision v → ¬d.Edge decision v →
    ∃ b q, Arm g p (Ends g targets (Leads g r.1)) v b q
  exists_edge : ∀ b bs e, p b bs e → ∃ v, r.2.Edge decision v ∧
    ∃ q, Arm g p (Ends g targets (Leads g r.1)) v b q ∧ q bs e
  normal : ∀ b bs, p b bs .normal → ∃ w, r.1 = some w
  broken : ∀ b bs, p b bs .break → ∃ x, r.2.Edge x (targets.breakTo.getD exit)

/-- The arms drawn for a part of the body of a switch are its labels. -/
def Admits (draw : Option Nat → JumpTargets → Drawing (Option Nat))
    (labels : List (Nat × Label × Tree)) (enters : (b case default arm : Nat) → Behaviour) : Prop :=
  ∀ (s : Scope) (d : Draft) (current : Option Nat) (targets : JumpTargets) (g : FlowGraph)
    (decision default case : Nat), Guided s d current targets True → g.marks exit = [] →
    Around targets decision default case labels →
    Settled g (s.move current (draw current targets d).1) (draw current targets d).2 →
    Entered g targets decision (enters d.branches.length case default) d (draw current targets d)

theorem Around.decides (h : Around targets decision default case labels)
    (hg : Guided s d current targets True) : s.Decides decision := by
  obtain ⟨ctx, hctx, _, hdec, _⟩ := h.exists_context
  exact ⟨_, hg.known trivial ctx hctx _ mem_concat_self, hdec ctx.default mem_concat_self⟩

/-- A part of the body without labels adds no arms: it may as well be drawn where no branches are
known. -/
theorem entered_none {draw : Option Nat → JumpTargets → Drawing (Option Nat)}
    (haround : Around targets decision default case labels)
    (hg : Guided s d current targets True) (hdraw : Draws labelled draw) (h : ¬labelled) :
    Entered g targets decision (fun _ _ _ => False) d (draw current targets d) where
  exists_arm := by
    intro v he hnot
    let s' : Scope := { s with known := fun _ => False }
    have hwithin : s'.Within s := ⟨fun _ => Iff.rfl, fun _ h => h, fun _ h => h, nofun⟩
    have hg' : Guided s' d current targets labelled :=
      { hg with
        inScope := ((Steps.refl.forget hwithin).evolves hg.inScope).2.1
        known := fun hl => absurd hl h }
    have hdec := haround.decides hg
    refine absurd ((((hdraw _ _ _ _ hg').steps.evolves hg'.inScope).1.edge_iff
      (hg.inScope.decides_lt _ hdec) ?_ v).mp he) hnot
    rintro (hfree | ⟨_, hfalse, _⟩)
    exacts [hg.inScope.apart _ hdec hfree, hfalse]
  exists_edge := fun _ _ _ h => h.elim
  normal := fun _ _ h => h.elim
  broken := fun _ _ h => h.elim

theorem entered_label {p : Behaviour} {q : Nat → Behaviour} {σ : Nat → Prop}
    (haround : Around targets decision default case labels)
    (hg : Guided s d current targets True) (hb : targets.switch.bind (armOf · l id) = some b)
    (hadded : LabelAdded d current (some b) d') (hset : Settled g (s.move current (some d.size)) d')
    (hgrown : Grown d' r.2 σ) (hfollows : Follows g targets p d.size r)
    (hentered : Entered g targets decision q d' r) :
    Entered g targets decision (fun a bs e => a = b.id ∧ p bs e ∨ q a bs e) d r := by
  have hs := hg.inScope
  have hdecides := haround.decides hg
  have hdlt := hs.decides_lt _ hdecides
  have hdec : b.decisionNode = decision := by
    obtain ⟨ctx, hctx, _, hdec, _⟩ := haround.exists_context
    obtain ⟨ctx', hctx', harm⟩ := Option.bind_eq_some_iff.mp hb
    obtain rfl : ctx = ctx' := Option.some.inj (hctx.symm.trans hctx')
    exact hdec _ (mem_of_armOf harm)
  have hlt := hadded.arm_lt b rfl
  -- The arm of the label leads to the label only.
  have hsucc (v : Nat) : v ∈ g.successors (d.size + 1) ↔ v = d.size := by
    rw [hset.edge_iff _ hlt (hs.not_source_new (by omega) (some_ne_some (by omega))) v,
      hadded.edge_iff, or_iff_right (hs.sourced.open (Nat.le_succ _) v)]
    refine ⟨?_, fun hv => .inr ⟨b, rfl, .inr ⟨rfl, hv⟩⟩⟩
    rintro (⟨hcur, _⟩ | ⟨b', hb', ⟨h, _⟩ | ⟨_, hv⟩⟩)
    · have := hg.current_lt _ hcur
      omega
    · cases hb'
      omega
    · exact hv
  have hmark : g.marks d.size = [] := by
    rw [hset.marks_eq (by omega), hadded.marks_label]
  have harm : Arm g (fun a bs e => a = b.id ∧ p bs e ∨ q a bs e) (Ends g targets (Leads g r.1))
      (d.size + 1) b.id p := by
    refine ⟨?_, hfollows.fragment.enter hsucc hmark (hs.ne_exit le_rfl),
      fun bs e h => .inl ⟨rfl, h⟩⟩
    rw [hset.marks_eq hlt, hadded.marks_arm b rfl]
  have hinner : ∀ {v a q'}, Arm g q (Ends g targets (Leads g r.1)) v a q' →
      Arm g (fun a bs e => a = b.id ∧ p bs e ∨ q a bs e) (Ends g targets (Leads g r.1)) v a q' :=
    fun h => ⟨h.marks_eq, h.fragment, fun bs e hq => .inr (h.le bs e hq)⟩
  refine ⟨fun v he hnot => ?_, ?_, ?_, ?_⟩
  · by_cases he1 : d'.Edge decision v
    · rcases (hadded.edge_iff decision v).mp he1 with he1 | ⟨h, _⟩ | ⟨b', _, ⟨_, rfl⟩ | ⟨h, _⟩⟩
      · exact absurd he1 hnot
      · exact absurd (hg.current_free _ h) (hs.apart _ hdecides)
      · exact ⟨b.id, p, harm⟩
      · omega
    · obtain ⟨a, q', h⟩ := hentered.exists_arm v he he1
      exact ⟨a, q', hinner h⟩
  · rintro a bs e (⟨rfl, h⟩ | h)
    · refine ⟨d.size + 1, hgrown.edge_of _ _ ?_, p, harm, h⟩
      exact (hadded.edge_iff _ _).mpr (.inr (.inr ⟨b, rfl, .inl ⟨hdec.symm, rfl⟩⟩))
    · obtain ⟨v, he, q', harm', hq⟩ := hentered.exists_edge a bs e h
      exact ⟨v, he, q', hinner harm', hq⟩
  · rintro a bs (⟨_, h⟩ | h)
    · exact hfollows.normal bs h
    · exact hentered.normal a bs h
  · rintro a bs (⟨_, h⟩ | h)
    · exact hfollows.broken bs h
    · exact hentered.broken a bs h

theorem entered_caseOrDefault {case' : Nat} (hk : l.kind = .case ∨ l.kind = .default)
    (hbody : Tracks (addSequence ts (id + 1)) (RunsAll ts))
    (hlabels : Admits (addSequence ts (id + 1)) (switchLabelsAll ts (id + 1)) (EntersAll ts))
    (haround : Around targets decision default case labels)
    (hg : Guided s d current targets True) (hexit : g.marks exit = [])
    (hb : targets.switch.bind (armOf · l id) = some b)
    (haround' : Around targets decision default case' (switchLabelsAll ts (id + 1)))
    (hset : Settled g (s.move current (addTree (.node l ts) id current targets d).1)
      (addTree (.node l ts) id current targets d).2) :
    Entered g targets decision (fun a bs e => a = b.id ∧ RunsAll ts d.branches.length bs e ∨
      EntersAll ts d.branches.length case' default a bs e) d
      (addTree (.node l ts) id current targets d) := by
  rw [addTree_caseOrDefault hk] at hset ⊢
  have h1 := hg.addSwitchLabel trivial l id
  have hadded := labelAdded_addSwitchLabel l id d current targets.switch
  generalize (addSwitchLabel l id current targets.switch d).2 = d1 at h1 hadded hset ⊢
  have hg1 := h1.guided hg
  have h2 := (draws_addSequence ts (id + 1)).mono (fun _ => trivial) _ _ _ targets hg1
  have hset2 := hset.within (h1.within hg.inScope _)
  have hfollows := hbody _ _ _ targets g hg1 hexit hset2
  have hentered := hlabels _ _ _ targets g decision default case' hg1 hexit haround' hset2
  rw [hadded.branches_eq] at hfollows hentered
  rw [hb] at hadded
  exact entered_label haround hg hb hadded (hset2.before hg1.inScope h2.steps)
    (h2.steps.evolves hg1.inScope).1 hfollows hentered

theorem Entered.andThen {p p' : Nat → Behaviour} {q : Behaviour} {r1 r2 : Option Nat × Draft}
    {σ : Nat → Prop} (h1 : Entered g targets decision p d r1)
    (hnext : ∀ w, r1.1 = some w → Follows g targets q w r2)
    (h2 : Entered g targets decision p' r1.2 r2) (hg : Grown r1.2 r2.2 σ) :
    Entered g targets decision (fun b bs e => (p b).andThen q bs e ∨ p' b bs e) d r2 := by
  have hfirst : ∀ {v b q'}, Arm g p (Ends g targets (Leads g r1.1)) v b q' →
      Arm g (fun b bs e => (p b).andThen q bs e ∨ p' b bs e) (Ends g targets (Leads g r2.1)) v b
        (q'.andThen q) := by
    intro v b q' harm
    refine ⟨harm.marks_eq, harm.fragment.andThen (fun m e bs he => ends_iff he) ?_, ?_⟩
    · intro bs hq'
      obtain ⟨w, hw⟩ := h1.normal b bs (harm.le bs _ hq')
      refine ⟨w, fun m bs => ?_, (hnext w hw).fragment⟩
      rw [hw]
      exact leads_some g w m bs
    · rintro bs e (⟨hq', he⟩ | ⟨bs1, bs2, hq', hq, rfl⟩)
      · exact .inl (.inl ⟨harm.le bs e hq', he⟩)
      · exact .inl (.inr ⟨bs1, bs2, harm.le bs1 _ hq', hq, rfl⟩)
  have hsecond : ∀ {v b q'}, Arm g p' (Ends g targets (Leads g r2.1)) v b q' →
      Arm g (fun b bs e => (p b).andThen q bs e ∨ p' b bs e) (Ends g targets (Leads g r2.1)) v b
        q' :=
    fun harm => ⟨harm.marks_eq, harm.fragment, fun bs e hq => .inr (harm.le bs e hq)⟩
  refine ⟨fun v he hnot => ?_, ?_, ?_, ?_⟩
  · by_cases he1 : r1.2.Edge decision v
    · obtain ⟨b, q', harm⟩ := h1.exists_arm v he1 hnot
      exact ⟨b, _, hfirst harm⟩
    · obtain ⟨b, q', harm⟩ := h2.exists_arm v he he1
      exact ⟨b, q', hsecond harm⟩
  · rintro b bs e ((⟨hp, he⟩ | ⟨bs1, bs2, hp, hq, rfl⟩) | hp)
    · obtain ⟨v, hv, q', harm, hq'⟩ := h1.exists_edge b bs e hp
      exact ⟨v, hg.edge_of _ _ hv, _, hfirst harm, .inl ⟨hq', he⟩⟩
    · obtain ⟨v, hv, q', harm, hq'⟩ := h1.exists_edge b bs1 .normal hp
      exact ⟨v, hg.edge_of _ _ hv, _, hfirst harm, .inr ⟨bs1, bs2, hq', hq, rfl⟩⟩
    · obtain ⟨v, hv, q', harm, hq'⟩ := h2.exists_edge b bs e hp
      exact ⟨v, hv, q', hsecond harm, hq'⟩
  · rintro b bs ((⟨_, hne⟩ | ⟨bs1, bs2, hp, hq, _⟩) | hp)
    · exact absurd rfl hne
    · obtain ⟨w, hw⟩ := h1.normal b bs1 hp
      exact (hnext w hw).normal bs2 hq
    · exact h2.normal b bs hp
  · rintro b bs ((⟨hp, _⟩ | ⟨bs1, bs2, hp, hq, _⟩) | hp)
    · exact (h1.broken b bs hp).imp fun x he => hg.edge_of x _ he
    · obtain ⟨w, hw⟩ := h1.normal b bs1 hp
      exact (hnext w hw).broken bs2 hq
    · exact h2.broken b bs hp

/-! ## Drawing switches -/

/-- The arm of a default that is not written was added. -/
structure SwitchClosed (decision exitPoint arm : Nat) (implied : Bool) (d d' : Draft) : Prop where
  edge_iff : ∀ y v, d'.Edge y v ↔ d.Edge y v ∨
    implied ∧ (y = decision ∧ v = d.size ∨ y = d.size ∧ v = exitPoint)
  arm_lt : implied → d.size < d'.size
  marks_arm : implied → d'.graph.marks d.size = [arm]

theorem switchClosed_ite (d : Draft) (b : Branch) (exitPoint : Nat) (implied : Bool) :
    SwitchClosed b.decisionNode exitPoint b.id implied d
      (if implied then (link (some d.size) exitPoint .fallThrough
        (addArm b .switchDefault none d).2).2 else d) := by
  cases implied with
  | false => exact ⟨fun y v => by simp, nofun, nofun⟩
  | true =>
    refine ⟨fun y v => ?_, fun _ => ?_, fun _ => ?_⟩
    · rw [if_pos rfl, edge_link, edge_addArm, or_assoc, Option.some.injEq, eq_comm (a := d.size),
        and_iff_right rfl]
    · rw [if_pos rfl, size_link, size_addArm]
      omega
    · rw [if_pos rfl, marks_link, marks_addArm_self]

/-- The decision of a switch leads to its labels, or to an arm for the default that is not written.
Where the runs of the body complete normally, they come to the exit of the switch. -/
theorem Entered.choose {p : Nat → Behaviour} {x arm : Nat} {implied : Bool}
    {switch : Option SwitchContext}
    (h : Entered g ⟨some x, targets.continueTo, switch⟩ decision p d r)
    (hexit : g.marks exit = []) (hnew : ∀ v, ¬d.Edge decision v)
    (hlast : ∀ w, r.1 = some w → ∀ v, v ∈ g.successors w ↔ v = x)
    (hdecision : ∀ v, v ∈ g.successors decision ↔ r.2.Edge decision v ∨ implied ∧ v = arm)
    (harm : implied → g.marks arm = [default] ∧ ∀ v, v ∈ g.successors arm ↔ v = x) :
    Fragment g decision
      (fun bs e => ∃ b bs', bs = b :: bs' ∧
        (p b bs' e ∨ implied ∧ b = default ∧ ends .normal bs' e))
      (Ends g ⟨some x, targets.continueTo, switch⟩ (g.Walks · x)) := by
  let p' : Nat → Behaviour := fun b bs e => p b bs e ∨ implied ∧ b = default ∧ ends .normal bs e
  let k := Ends g ⟨some x, targets.continueTo, switch⟩ (g.Walks · x)
  have hlabel : ∀ {v b q}, Arm g p
      (Ends g ⟨some x, targets.continueTo, switch⟩ (Leads g r.1)) v b q →
      Arm g p' k v b q := by
    intro v b q harm
    refine harm.imp (fun bs e h => .inl h) (fun bs e _ m bs' => ends_mono ?_)
      fun bs e hrun m bs' => ends_exists fun he hk => ?_
    · rintro - ⟨w, hw, hleaves⟩
      exact ⟨m, Nat.le_refl m, (leaves_iff_of_single (hlast w hw) m bs').mp hleaves⟩
    · obtain ⟨w, hw⟩ := h.normal b bs (he ▸ hrun)
      exact ⟨m, w, hw, (leaves_iff_of_single (hlast w hw) m bs').mpr hk⟩
  have himplied (himp : implied) : Arm g p' k arm default (ends .normal) :=
    ⟨(harm himp).1, Fragment.jump (harm himp).2 fun _ _ => Iff.rfl,
      fun bs e h => .inr ⟨himp, rfl, h⟩⟩
  refine Fragment.choose hexit (fun v hv => ?_) fun b bs e hrun => ?_
  · rcases (hdecision v).mp hv with he | ⟨himp, rfl⟩
    · obtain ⟨b, q, harm⟩ := h.exists_arm v he (hnew v)
      exact ⟨b, q, hlabel harm⟩
    · exact ⟨_, _, himplied himp⟩
  · rcases hrun with hrun | ⟨himp, rfl, hrun⟩
    · obtain ⟨v, he, q, harm, hq⟩ := h.exists_edge b bs e hrun
      exact ⟨v, (hdecision v).mpr (.inl he), q, hlabel harm, hq⟩
    · exact ⟨_, (hdecision _).mpr (.inr ⟨himp, rfl⟩), _, himplied himp, hrun⟩

theorem tracks_switch (hk : l.kind = .switch) (hts : areStructured ts true)
    (hbody : Admits (addSequence ts (id + 1)) (switchLabelsAll ts (id + 1)) (EntersAll ts)) :
    Tracks (addTree (.node l ts) id) (Runs (.node l ts)) := by
  intro s d u targets g hg hexit hset
  have hcounted := labelsCounted_switchLabelsAll ts (id + 1) hts
  have hs := hg.inScope
  obtain ⟨ctx, hctx, heq⟩ := exists_addTree_switch hk ts id (some u) targets d
  rw [heq] at hset ⊢
  have h4 := hg.switch hctx
  dsimp only at h4 hset ⊢
  -- The decision with its branches, and the exit after it.
  let d1 := d.divide (d.stated .decision l (.str (subjectOf l))) (some u) ctx.branches
  let d2 := d1.push (d1.point .switchExit l.line)
  have hsize1 : d1.size = d.size + 1 := size_divide ..
  have hsize2 : d2.size = d.size + 2 := by rw [size_push, hsize1]
  have hedge2 : ∀ y v, d2.Edge y v ↔ d.Edge y v ∨ some u = some y ∧ v = d.size :=
    edge_divide d _ (some u) ctx.branches
  have hmarks2 : d2.graph.marks d.size = [] ∧ d2.graph.marks (d.size + 1) = [] := by
    rw [← hsize1, marks_push_self, (grown_push d1 _ fun _ => False).marks_eq (by omega), marks,
      node?_divide]
    exact ⟨rfl, rfl⟩
  have hbranches2 : d2.branches.length = d.branches.length + caseCountAll ts + 1 := by
    rw [branches_push, ← hcounted.length_eq, Nat.add_assoc, ← hctx.length_eq]
    exact length_append
  have hid := hctx.default_id
  have hdefault := hctx.decision_eq (b := ctx.default) mem_concat_self
  rw [hcounted.length_eq] at hid
  have hg4 := hg.inSwitch h4 True
  have haround : Around ⟨some (d.size + 1), targets.continueTo, some ctx⟩ d.size
      (d.branches.length + caseCountAll ts) d.branches.length (switchLabelsAll ts (id + 1)) :=
    ⟨ctx, rfl, hid, fun b hb => hctx.decision_eq hb, hctx.casesAt
      ((pairwise_lt_range' ..).sublist (sublist_switchLabelsAll ts (id + 1)))⟩
  have h5 := (draws_addSequence ts (id + 1)).mono (fun _ => trivial) _ _ _ _ hg4
  have hentered := hbody _ _ _ _ g _ _ _ hg4 hexit haround
  generalize addSequence ts (id + 1) none _ _ = r5 at h5 hentered hset ⊢
  have h6 := h4.trans (h5.link hg4.inScope (.inr rfl) .fallThrough)
  have hs6 := (h6.evolves hs).2.1
  have hclose := hg.closeSwitch h6 (!hasDefaultAll ts)
  have hclosed := switchClosed_ite (link r5.1 (d.size + 1) .fallThrough r5.2).2 ctx.default
    (d.size + 1) (!hasDefaultAll ts)
  rw [hdefault, hid] at hclosed
  rw [hcounted.all_eq] at hset ⊢
  have hset7 := hset.within (ifEntered_within s (some u) (d.size + 1) _)
  generalize (if (!hasDefaultAll ts) then _ else _) = d7 at hclose hclosed hset7 ⊢
  have hset6 := hset7.before hs6 hclose
  obtain ⟨hlast, hset5⟩ := h5.settled hg4.inScope (.inr rfl) hset6
  have hset4 := hset5.before hg4.inScope h5.steps
  have hlabels := hentered hset5
  change Entered _ _ _ (EntersAll ts d2.branches.length _ _) d2 _ at hlabels
  rw [hbranches2] at hlabels
  have hult := hg.current_lt u rfl
  have hsize5 : d2.size ≤ r5.2.size := (h5.steps.evolves hg4.inScope).1.size_le
  have hsize6 := size_link r5.2 r5.1 (d.size + 1) .fallThrough
  have hsize7 := (hclose.evolves hs6).1.size_le
  have hnew (v : Nat) (he : d2.Edge d.size v) : False := by
    rcases (hedge2 d.size v).mp he with he | ⟨heq, _⟩
    · exact hs.sourced.open le_rfl v he
    · exact absurd (Option.some.inj heq) hult.ne
  have hdecision (v : Nat) : v ∈ g.successors d.size ↔ r5.2.Edge d.size v ∨
      (!hasDefaultAll ts) ∧ v = (link r5.1 (d.size + 1) .fallThrough r5.2).2.size := by
    have hnot : r5.1 ≠ some d.size := fun hw => by
      have : d2.size ≤ d.size := (h5.last_new _ hw).resolve_left fun h => by cases h
      omega
    have hne : d.size ≠ (link r5.1 (d.size + 1) .fallThrough r5.2).2.size := by omega
    rw [hset7.edge_iff d.size (show _ < d7.size by omega)
      (hs.not_source_new le_rfl (some_ne_some (by omega))) v]
    show d7.Edge d.size v ↔ _
    rw [hclosed.edge_iff, edge_link]
    simp only [hnot, hne, false_and, or_false, true_and]
  have harm (himp : !hasDefaultAll ts) :
      g.marks (link r5.1 (d.size + 1) .fallThrough r5.2).2.size
        = [d.branches.length + caseCountAll ts] ∧
      ∀ v, v ∈ g.successors (link r5.1 (d.size + 1) .fallThrough r5.2).2.size ↔ v = d.size + 1 := by
    have hlt := hclosed.arm_lt himp
    refine ⟨(hset7.marks_eq hlt).trans (hclosed.marks_arm himp), fun v => ?_⟩
    rw [hset7.edge_iff _ hlt (hs.not_source_new (by omega) (some_ne_some (by omega))) v]
    show d7.Edge _ v ↔ _
    have hne : (link r5.1 (d.size + 1) .fallThrough r5.2).2.size ≠ d.size := by omega
    rw [hclosed.edge_iff, or_iff_right (hs6.sourced.open le_rfl v)]
    simp only [himp, hne, true_and, false_and, false_or]
  have hchoose := hlabels.choose hexit hnew hlast hdecision harm
  have hmarks4 (y : Nat) (hy : y < d.size + 2) : g.marks y = d2.graph.marks y :=
    hset4.marks_eq (hsize2 ▸ hy)
  have henter (v : Nat) : v ∈ g.successors u ↔ v = d.size := by
    have hfree := hg.current_free u rfl
    rw [hset4.edge_iff u (show u < d2.size by omega) ?_ v]
    · exact (hedge2 u v).trans ((or_iff_right (hs.free_open u hfree v)).trans (and_iff_right rfl))
    rintro ((⟨_, hne⟩ | hu) | ⟨b, hb | hb, hdec⟩)
    · exact hne rfl
    · omega
    · exact hs.apart u ⟨b, hb, hdec⟩ hfree
    · have := hctx.decision_eq hb
      omega
  have hruns : Runs (.node l ts) d.branches.length = inSwitch fun bs e => ∃ b bs', bs = b :: bs' ∧
      (EntersAll ts (d.branches.length + caseCountAll ts + 1) d.branches.length
          (d.branches.length + caseCountAll ts) b bs' e ∨
        (!hasDefaultAll ts) = true ∧ b = d.branches.length + caseCountAll ts ∧
          ends .normal bs' e) := by
    simp only [Runs, hk, Bool.not_eq_true']
  rw [hruns]
  refine Joined.follows (j := d.size + 1) ⟨(hchoose.inSwitch (fun m bs => Iff.rfl)
    fun m e bs he => ?_).enter henter ((hmarks4 _ (by omega)).trans hmarks2.1) (hs.ne_exit le_rfl),
    ?_, ?_⟩ ((hmarks4 _ (by omega)).trans hmarks2.2) (hs.ne_exit (by omega))
    (fun w hw => ((fst_ifEntered_eq_some d7 (d.size + 1) w).mp hw).1)
    fun h => (fst_ifEntered_eq_some d7 (d.size + 1) _).mpr ⟨rfl, h⟩
  · cases e with
    | «break» => exact absurd rfl he
    | normal | «continue» | «return» => exact Iff.rfl
  · rintro bs (⟨⟨b, bs', _, hrun⟩, _⟩ | ⟨⟨b, bs', _, hrun⟩, _⟩)
    · rcases hrun with hrun | ⟨_, _, _, h⟩
      · obtain ⟨x, he⟩ := hlabels.broken b bs' hrun
        exact ⟨x, (hclosed.edge_iff x _).mpr (.inl ((edge_link ..).mpr (.inl he)))⟩
      · cases h
    · rcases hrun with hrun | ⟨himp, _⟩
      · obtain ⟨w, hw⟩ := hlabels.normal b bs' hrun
        exact ⟨w, (hclosed.edge_iff w _).mpr (.inl ((edge_link ..).mpr (.inr ⟨hw, rfl⟩)))⟩
      · exact ⟨_, (hclosed.edge_iff _ _).mpr (.inr ⟨himp, .inr ⟨rfl, rfl⟩⟩)⟩
  · rintro bs (⟨_, h⟩ | ⟨_, h⟩)
    · cases h
    · exact absurd rfl h

end Draft

end Branchwise
