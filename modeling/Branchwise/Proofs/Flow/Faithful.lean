import Branchwise.Proofs.Flow.Loops
import Branchwise.Proofs.Flow.Switches

/-!
# The flow graph of a structured body

The walks through the graph of a structured body from its entry to its exit take the branches of the
runs of the body, and no others.  The proof goes through the construction of the graph.
-/

namespace Branchwise

open FlowGraph Behaviour List

variable {body : Tree}

namespace Draft

open Branchwise.Tree

/-! ## Bodies that can be drawn

A structured body can be drawn if its conditions, texts and values are texts or missing. -/

theorem exists_trimmed {j : Json} (h : j.isTextual) : ∃ s, j.trimmed = .ok s := by
  cases j with
  | str s => exact ⟨Text.trim s, rfl⟩
  | null | bool | int | real | arr | obj =>
    refine ⟨"", ?_⟩
    simp only [Json.trimmed]
    exact if_pos h

theorem isTextual_orElse {a b : Json} (ha : a.isTextual) (hb : b.isTextual) :
    (a.orElse b).isTextual := by
  unfold Json.orElse
  split
  · exact hb
  · exact ha

def isChecked (l : Label) : Bool :=
  l.condition.isTextual && l.text.isTextual && l.value.isTextual

theorem check_of_isChecked {l : Label} (h : isChecked l) :
    checkGuard l = .ok () ∧ checkSubject l = .ok () ∧ checkCaseValue l = .ok () := by
  simp only [isChecked, Bool.and_eq_true] at h
  obtain ⟨s1, h1⟩ := exists_trimmed h.1.1
  obtain ⟨s2, h2⟩ := exists_trimmed (isTextual_orElse h.1.1 h.1.2)
  obtain ⟨s3, h3⟩ := exists_trimmed (isTextual_orElse h.2 h.1.2)
  refine ⟨?_, ?_, ?_⟩
  · rw [checkGuard, h1]
    rfl
  · rw [checkSubject, h2]
    rfl
  · rw [checkCaseValue, givenValue, h3]
    rfl

theorem hasTexts_node {l : Label} {ts : List Tree} (h : (Tree.node l ts).hasTexts) :
    isChecked l ∧ ∀ t ∈ ts, t.hasTexts := by
  simp only [hasTexts, all_eq_true] at h ⊢
  refine ⟨h (.node l ts) (by rw [walk_node]; exact mem_cons_self), fun t ht n hn => h n ?_⟩
  rw [walk_node]
  exact mem_cons_of_mem _ (mem_flatMap.mpr ⟨t, ht, hn⟩)

mutual

theorem isChecked_of_mem_switchLabels (t : Tree) (id : Nat) (h : t.hasTexts) :
    ∀ x ∈ switchLabels t id, isChecked x.2.1 := by
  obtain ⟨l, ts⟩ := t
  obtain ⟨hl, hts⟩ := hasTexts_node h
  intro x hx
  simp only [switchLabels, mem_append] at hx
  rcases hx with hx | hx
  · split at hx
    · obtain rfl := mem_singleton.mp hx
      exact hl
    · cases hx
  · split at hx
    · cases hx
    · exact isChecked_of_mem_switchLabelsAll ts (id + 1) hts x hx

theorem isChecked_of_mem_switchLabelsAll (ts : List Tree) (id : Nat)
    (h : ∀ t ∈ ts, t.hasTexts) :
    ∀ x ∈ switchLabelsAll ts id, isChecked x.2.1 := by
  match ts with
  | [] => exact nofun
  | t :: ts =>
    intro x hx
    rcases mem_append.mp (show x ∈ switchLabels t id ++ _ from hx) with hx | hx
    · exact isChecked_of_mem_switchLabels t id (h t mem_cons_self) x hx
    · exact isChecked_of_mem_switchLabelsAll ts _ (fun t ht => h t (mem_cons_of_mem _ ht)) x hx

end

theorem forM_eq_ok {α : Type} {f : α → Except Error Unit} {xs : List α}
    (h : ∀ x ∈ xs, f x = .ok ()) : xs.forM f = .ok () := by
  induction xs with
  | nil => rfl
  | cons x xs ih =>
    show (f x >>= fun _ => xs.forM f) = .ok ()
    rw [h x mem_cons_self]
    exact ih fun y hy => h y (mem_cons_of_mem _ hy)

mutual

theorem checkTree_eq_ok (t : Tree) {inSwitch : Bool} (h : t.isStructured inSwitch)
    (ht : t.hasTexts) : checkTree t = .ok () := by
  obtain ⟨l, ts⟩ := t
  obtain ⟨hl, hts⟩ := hasTexts_node ht
  obtain ⟨hguard, hsubject, _⟩ := check_of_isChecked hl
  have hleaf : ((Tree.node l ts).collect .ternary).forM (fun e => checkGuard e.label) = .ok () := by
    refine forM_eq_ok fun e he => ?_
    have hmem := (mem_filter.mp he).1
    exact (check_of_isChecked (all_eq_true.mp ht e hmem)).1
  match hk : l.kind with
  | .compound =>
    simp only [isStructured, hk] at h
    simp only [checkTree, hk]
    exact checkAll_eq_ok ts h hts
  | .case | .default =>
    simp only [isStructured, hk, Bool.and_eq_true] at h
    simp only [checkTree, hk]
    exact checkAll_eq_ok ts h.2 hts
  | .ifElse =>
    simp only [isStructured, hk, Bool.and_eq_true] at h
    simp only [checkTree, hk]
    exact checkChain_eq_ok l ts h.2 hl hts
  | .whileLoop | .forLoop =>
    simp only [isStructured, hk, Bool.and_eq_true] at h
    simp only [checkTree, hk, hguard]
    exact checkFirst_eq_ok ts h.2 hts
  | .doLoop =>
    simp only [isStructured, hk, Bool.and_eq_true] at h
    simp only [checkTree, hk, hguard, checkFirst_eq_ok ts h.2 hts]
    rfl
  | .switch =>
    simp only [isStructured, hk] at h
    have hlabels : (switchLabelsAll ts 0).forM (fun x =>
        if x.2.1.kind = .default then .ok () else checkCaseValue x.2.1) = .ok () := by
      refine forM_eq_ok fun x hx => ?_
      have hx' := (check_of_isChecked (isChecked_of_mem_switchLabelsAll ts 0 hts x hx)).2.2
      split
      · rfl
      · exact hx'
    simp only [checkTree, hk, hsubject]
    show ((switchLabelsAll ts 0).forM _ >>= fun _ => checkAll ts) = _
    rw [hlabels]
    exact checkAll_eq_ok ts h hts
  | .goto => simp [isStructured, hk] at h
  | .label => simp [isStructured, hk] at h
  | .break | .continue | .return | .call | .declaration | .expression | .ternary =>
    simp only [checkTree, hk]
    exact hleaf

theorem checkAll_eq_ok (ts : List Tree) {inSwitch : Bool} (h : areStructured ts inSwitch)
    (ht : ∀ t ∈ ts, t.hasTexts) : checkAll ts = .ok () := by
  match ts with
  | [] => rfl
  | t :: ts =>
    simp only [areStructured, Bool.and_eq_true] at h
    simp only [checkAll, checkTree_eq_ok t h.1 (ht t mem_cons_self)]
    exact checkAll_eq_ok ts h.2 fun t' ht' => ht t' (mem_cons_of_mem _ ht')

theorem checkFirst_eq_ok (ts : List Tree) {inSwitch : Bool} (h : areStructured ts inSwitch)
    (ht : ∀ t ∈ ts, t.hasTexts) : checkFirst ts = .ok () := by
  match ts with
  | [] => rfl
  | t :: ts =>
    simp only [areStructured, Bool.and_eq_true] at h
    exact checkTree_eq_ok t h.1 (ht t mem_cons_self)

theorem checkChain_eq_ok (l : Label) (ts : List Tree) (h : areStructured ts false)
    (hl : isChecked l) (ht : ∀ t ∈ ts, t.hasTexts) : checkChain l ts = .ok () := by
  have hguard := (check_of_isChecked hl).1
  match ts with
  | [] => exact hguard
  | [t] =>
    simp only [areStructured, Bool.and_eq_true] at h
    simp only [checkChain, hguard]
    exact checkTree_eq_ok t h.1 (ht t mem_cons_self)
  | t :: .node l' ts' :: ts =>
    simp only [areStructured, Bool.and_eq_true] at h
    have hnode := ht (.node l' ts') (mem_cons_of_mem _ mem_cons_self)
    obtain ⟨hl', hts'⟩ := hasTexts_node hnode
    simp only [checkChain, hguard, checkTree_eq_ok t h.1 (ht t mem_cons_self)]
    show (if l'.kind = .ifElse then checkChain l' ts' else checkTree (.node l' ts')) = .ok ()
    by_cases hk : l'.kind = .ifElse
    · have h' := h.2.1
      simp only [isStructured, hk, Bool.and_eq_true] at h'
      rw [if_pos hk]
      exact checkChain_eq_ok l' ts' h'.2 hl' hts'
    · rw [if_neg hk]
      exact checkTree_eq_ok (.node l' ts') h.2.1 hnode

end

/-! ## Statements and labels -/

mutual

theorem tracks_addTree (t : Tree) {inSwitch : Bool} (h : t.isStructured inSwitch)
    (id : Nat) : Tracks (addTree t id) (Runs t) := by
  obtain ⟨l, ts⟩ := t
  have hleaf : addTree (.node l ts) id = addLeaf (.node l ts) → (Tree.node l ts).isPlain →
      l.kind ≠ .goto → Tracks (addTree (.node l ts) id) fun b =>
        (Decides (.node l ts) b).andThen (ends l.kind.completion) := by
    intro heq hplain hgoto
    rw [heq]
    exact tracks_addLeaf hplain hgoto
  have hfirst (hlen : ts.length ≤ 1) (hts : areStructured ts false) :
      Tracks (addFirst ts (id + 1)) (RunsAll ts) := by
    rw [show addFirst ts (id + 1) = addSequence ts (id + 1) from
      funext₂ (addFirst_eq_of_length_le hlen (id + 1))]
    exact tracks_addSequence ts hts (id + 1)
  intro s d u targets g hg hexit hset
  match hk : l.kind with
  | .compound =>
    simp only [isStructured, hk] at h
    simp only [Runs, hk]
    rw [addTree_compound _ _ _ _ _ _ hk] at hset ⊢
    exact tracks_addSequence ts h (id + 1) s d u targets g hg hexit hset
  | .ifElse =>
    simp only [isStructured, hk, Bool.and_eq_true, decide_eq_true_eq] at h
    simp only [Runs, hk]
    exact tracks_ifElse hk (joins_addChain l ts h.2 (id + 1)) s d u targets g hg hexit hset
  | .whileLoop =>
    simp only [isStructured, hk, Bool.and_eq_true, decide_eq_true_eq] at h
    simp only [Runs, hk]
    exact tracks_whileLoop (hfirst h.1 h.2) hk s d u targets g hg hexit hset
  | .doLoop =>
    simp only [isStructured, hk, Bool.and_eq_true, decide_eq_true_eq] at h
    simp only [Runs, hk]
    refine tracks_doLoop (hfirst h.1 h.2) hk (fun current targets d => ?_) s d u targets g hg hexit
      hset
    rw [addFirst_eq_of_length_le h.1, length_branches_addSequence (id + 1) current targets d h.2]
  | .forLoop =>
    simp only [isStructured, hk, Bool.and_eq_true, decide_eq_true_eq] at h
    simp only [Runs, hk]
    exact tracks_forLoop (hfirst h.1 h.2) hk s d u targets g hg hexit hset
  | .switch =>
    simp only [isStructured, hk] at h
    exact tracks_switch hk h (entered_addSequence ts h (id + 1)) s d u targets g hg hexit hset
  | .case =>
    simp only [isStructured, hk, Bool.and_eq_true] at h
    simp only [Runs, hk]
    exact tracks_caseOrDefault (.inl hk) (tracks_addSequence ts h.2 (id + 1)) s d u targets g hg
      hexit hset
  | .default =>
    simp only [isStructured, hk, Bool.and_eq_true] at h
    simp only [Runs, hk]
    exact tracks_caseOrDefault (.inr hk) (tracks_addSequence ts h.2 (id + 1)) s d u targets g hg
      hexit hset
  | .goto | .label => simp [isStructured, hk] at h
  | .break | .continue | .return | .call | .declaration | .expression | .ternary =>
    simp only [isStructured, hk] at h
    simp only [Runs, hk]
    rw [← hk]
    exact hleaf (by funext; simp only [addTree, hk]) h (by simp [hk]) s d u targets g hg hexit hset

theorem tracks_addSequence (ts : List Tree) {inSwitch : Bool}
    (h : areStructured ts inSwitch) (id : Nat) :
    Tracks (addSequence ts id) (RunsAll ts) := by
  intro s d u targets g hg hexit hset
  match ts with
  | [] => exact Follows.skip d
  | t :: ts =>
    simp only [areStructured, Bool.and_eq_true] at h
    rw [addSequence_cons] at hset ⊢
    exact (tracks_addTree t h.1 id).andThen (tracks_addSequence ts h.2 (id + t.size))
      ((draws_addTree t id).mono fun _ => trivial)
      ((draws_addSequence ts (id + t.size)).mono fun _ => trivial)
      (fun current targets d => length_branches_addTree id current targets d h.1)
      s d u targets g hg hexit hset

theorem joins_addChain (l : Label) (ts : List Tree) (h : areStructured ts false) (id join : Nat) :
    Joins join (addChain join l ts id) (RunsIf ts) := by
  match ts with
  | [] => exact joins_chain_nil
  | [t] =>
    simp only [areStructured, Bool.and_eq_true] at h
    exact joins_chain_one (tracks_addTree t h.1 id) h.1
  | t :: .node l' ts' :: ts =>
    simp only [areStructured, Bool.and_eq_true] at h
    have ht := tracks_addTree t h.1 id
    by_cases hk : l'.kind = .ifElse
    · have hts' : areStructured ts' false := by
        have h' := h.2.1
        simp only [isStructured, hk, Bool.and_eq_true] at h'
        exact h'.2
      have hjoins : Joins join (addChain join l (t :: .node l' ts' :: ts) id) _ :=
        joins_chain_chain ht h.1 hk (joins_addChain l' ts' hts' (id + t.size + 1) join)
      simpa only [Joins, RunsIf, Runs, hk] using hjoins
    · exact joins_chain_else ht h.1 hk (tracks_addTree (.node l' ts') h.2.1 (id + t.size))

theorem entered_addTree (t : Tree) (h : t.isStructured true) (id : Nat) :
    Admits (addTree t id) (switchLabels t id) (Enters t) := by
  obtain ⟨l, ts⟩ := t
  intro s d current targets g decision default case hg hexit haround hset
  obtain ⟨ctx, hctx, hdefault, hdec, hat⟩ := haround.exists_context
  match hk : l.kind with
  | .compound =>
    simp only [isStructured, hk] at h
    rw [switchLabels_node (by simp [hk])] at haround
    rw [addTree_compound _ _ _ _ _ _ hk] at hset ⊢
    have hbody := entered_addSequence ts h (id + 1) s d current targets g decision default case hg
      hexit haround hset
    have henters : Enters (.node l ts) d.branches.length case default
        = EntersAll ts d.branches.length case default := by
      funext a
      simp only [Enters, hk]
    rwa [henters]
  | .case =>
    simp only [isStructured, hk, Bool.and_eq_true] at h
    have hlabels := caseLabels_switchLabels l ts id (.inl hk)
    rw [if_pos hk] at hlabels
    rw [CasesAt, hlabels, singleton_append, map_cons, length_cons, range'_succ, map_cons,
      cons.injEq] at hat
    obtain ⟨b, hb, hid⟩ := Option.map_eq_some_iff.mp hat.1
    have hentered := entered_caseOrDefault (.inl hk) (tracks_addSequence ts h.2 (id + 1))
      (entered_addSequence ts h.2 (id + 1)) haround hg hexit (hctx ▸ hb)
      ⟨ctx, hctx, hdefault, hdec, hat.2⟩ hset
    have henters : Enters (.node l ts) d.branches.length case default
        = fun a bs e => a = b.id ∧ RunsAll ts d.branches.length bs e ∨
          EntersAll ts d.branches.length (case + 1) default a bs e := by
      funext a
      simp only [Enters, hk, hid]
    rwa [henters]
  | .default =>
    simp only [isStructured, hk, Bool.and_eq_true] at h
    have hlabels := caseLabels_switchLabels l ts id (.inr hk)
    rw [if_neg (by simp [hk]), nil_append] at hlabels
    rw [CasesAt, hlabels] at hat
    have hentered := entered_caseOrDefault (.inr hk) (tracks_addSequence ts h.2 (id + 1))
      (entered_addSequence ts h.2 (id + 1)) haround hg hexit (b := ctx.default) (by
        rw [hctx, Option.bind_some, armOf, if_pos hk]) ⟨ctx, hctx, hdefault, hdec, hat⟩ hset
    have henters : Enters (.node l ts) d.branches.length case default
        = fun a bs e => a = ctx.default.id ∧ RunsAll ts d.branches.length bs e ∨
          EntersAll ts d.branches.length case default a bs e := by
      funext a
      simp only [Enters, hk, hdefault]
    rwa [henters]
  | .ifElse | .whileLoop | .doLoop | .forLoop | .switch | .goto | .label | .break | .continue
  | .return | .call | .declaration | .expression | .ternary =>
    have henters : Enters (.node l ts) d.branches.length case default = fun _ _ _ => False := by
      funext a
      simp only [Enters, hk]
    rw [henters]
    refine entered_none haround hg (draws_addTree _ id) ?_
    have hnot : (Tree.node l ts).isStructured false := by simpa only [isStructured, hk] using h
    exact fun hne => hne ((labelsCounted_switchLabels _ id hnot).eq_nil rfl)

theorem entered_addSequence (ts : List Tree) (h : areStructured ts true) (id : Nat) :
    Admits (addSequence ts id) (switchLabelsAll ts id) (EntersAll ts) := by
  intro s d current targets g decision default case hg hexit haround hset
  match ts with
  | [] => exact entered_none haround hg draws_skip not_false
  | t :: ts =>
    simp only [areStructured, Bool.and_eq_true] at h
    rw [addSequence_cons] at hset ⊢
    dsimp only at hset ⊢
    have h1 := (draws_addTree t id).mono (fun _ => trivial) s d current targets hg
    have hcounted := length_branches_addTree id current targets d h.1
    have hfirst := entered_addTree t h.1 id s d current targets g decision default case hg hexit
      (haround.mono fun ctx hat => hat.of_append.1)
    generalize addTree t id current targets d = r1 at h1 hcounted hfirst hset ⊢
    have hg1 := h1.guided hg
    have h2 := (draws_addSequence ts (id + t.size)).mono (fun _ => trivial) _ _ _ targets hg1
    have hset2 := hset.within (h1.within hg.inScope _)
    have hsecond := entered_addSequence ts h.2 (id + t.size) _ _ _ targets g decision default
      (case + t.caseCount) hg1 hexit (haround.mono fun ctx hat => by
        rw [← (labelsCounted_switchLabels t id h.1).length_eq]
        exact hat.of_append.2) hset2
    rw [hcounted] at hsecond
    refine (hfirst (hset2.before hg1.inScope h2.steps)).andThen (fun w hw => ?_) hsecond
      (h2.steps.evolves hg1.inScope).1
    rw [hw] at hg1 hset2 ⊢
    have hnext := tracks_addSequence ts h.2 (id + t.size) _ r1.2 w targets g hg1 hexit hset2
    rwa [hcounted] at hnext

end

/-! ## Whole bodies -/

theorem closeGotos_of_gotos_eq_nil {d : Draft} (h : d.gotos = []) : (closeGotos d).2 = d := by
  unfold closeGotos
  show ((forM d.gotos fun x =>
    addEdge x.1 ((d.labels.get? x.2).getD exit) .gotoJump none : Drawing Unit) d).2 = d
  rw [h]
  rfl

theorem drawn_of_gotos_eq_nil (function : Json)
    {r : Option Nat × Draft}
    (hr : addTree body 0 (some entry) ⟨none, none, none⟩ (empty function) = r)
    (hgotos : r.2.gotos = []) :
    (drawn function body).graph = (link r.1 exit .fallThrough r.2).2.graph ∧
      (drawn function body).gotos = [] := by
  have hbody : (addBody body (empty function)).2 = (link r.1 exit .fallThrough r.2).2 := by
    simp only [addBody, bind_apply, hr]
    exact closeGotos_of_gotos_eq_nil (by rw [gotos_link, hgotos])
  constructor
  · show (addBody body (empty function)).2.graph = _
    rw [hbody]
  · show (addBody body (empty function)).2.gotos = _
    rw [hbody, gotos_link, hgotos]

theorem gotos_of_tallyOf (h : (tallyOf body 0).2.2 = 0) (function : Json) :
    (addTree body 0 (some entry) ⟨none, none, none⟩ (empty function)).2.gotos = [] := by
  have htally := (records_addTree body 0 (some entry) ⟨none, none, none⟩ (empty function)).tally_eq
  refine eq_nil_of_length_eq_zero ((congrArg (·.2.2) htally).trans ?_)
  show 0 + (tallyOf body 0).2.2 = 0
  rw [h]

theorem drawn_of_isStructured (function : Json) (h : body.isStructured false) :
    let r := addTree body 0 (some entry) ⟨none, none, none⟩ (empty function)
    (drawn function body).graph = (link r.1 exit .fallThrough r.2).2.graph ∧
      (drawn function body).gotos = [] := by
  obtain ⟨n, hn⟩ := exists_tallyOf_eq body 0 h
  exact drawn_of_gotos_eq_nil function rfl (gotos_of_tallyOf (by rw [hn]) function)

theorem exists_isWalk_iff_of_tracks (function : Json) {runs : Nat → Behaviour}
    (hbody : Tracks (addTree body 0) runs) (hgotos : (tallyOf body 0).2.2 = 0) (bs : List Nat) :
    (∃ w, (drawn function body).graph.IsWalk w ∧ (drawn function body).graph.branchesAlong w = bs) ↔
      ∃ e, runs 0 bs e := by
  have hg := guided_empty function True
  have hs := hg.inScope
  have h := (draws_addTree body 0).mono (fun _ => trivial) _ _ _ _ hg
  have hfollows := hbody .start (empty function) entry ⟨none, none, none⟩
  have hgraph := (drawn_of_gotos_eq_nil function rfl (gotos_of_tallyOf hgotos function)).1
  generalize addTree body 0 (some entry) ⟨none, none, none⟩ (empty function) = r
    at h hfollows hgraph
  rw [hgraph]
  have hgrown := ((h.link hs rfl .fallThrough).evolves hs).1
  have hsettled (g : FlowGraph) (hset : Settled g _ (link r.1 exit .fallThrough r.2).2) :=
    h.settled hs rfl hset
  generalize (link r.1 exit .fallThrough r.2).2 = d at hgrown hsettled
  obtain ⟨hsucc, hset⟩ := hsettled d.graph ⟨fun _ _ => rfl, fun _ _ _ _ => Iff.rfl⟩
  have hmarks (x : Nat) (hx : x < 2) : d.graph.marks x = (empty function).graph.marks x :=
    hgrown.marks_eq hx
  have hexit : d.graph.marks exit = [] := hmarks exit Nat.one_lt_two
  have hstop (v : Nat) (hv : v ∈ d.graph.successors exit) : False := by
    refine absurd ((hgrown.edge_iff Nat.one_lt_two ?_ v).mp hv) nofun
    rintro (h | ⟨_, h, _⟩)
    exacts [Nat.one_ne_zero h, h]
  have hnil : ∀ {n bs}, d.graph.Walks n exit bs → bs = [] := by
    intro n bs hw
    cases hw with
    | exit => rfl
    | step hv _ => exact (hstop _ hv).elim
  have hbody := hfollows d.graph hg hexit hset
  simp only [IsWalk, and_assoc]
  rw [exists_walks_iff hexit entry bs]
  constructor
  · rintro ⟨n, hw⟩
    obtain ⟨m, _, hleaves⟩ := hw.leaves_unmarked (hmarks entry Nat.zero_lt_two) (by decide)
    obtain ⟨m', _, bs1, e, bs2, hrun, hk, rfl⟩ := hbody.fragment.sound m bs hleaves
    have hbs2 : bs2 = [] := by
      cases e with
      | normal =>
        obtain ⟨w, hw, hleaves⟩ := hk
        exact hnil ((leaves_iff_of_single (hsucc w hw) m' bs2).mp hleaves)
      | «break» | «continue» | «return» => exact hnil hk
    rw [hbs2, append_nil]
    exact ⟨e, hrun⟩
  · rintro ⟨e, hrun⟩
    have hk : Ends d.graph ⟨none, none, none⟩ (Leads d.graph r.1) 0 e [] := by
      cases e with
      | normal =>
        obtain ⟨w, hw⟩ := hbody.normal bs hrun
        exact ⟨w, hw, exit, (hsucc w hw exit).mpr rfl, .exit⟩
      | «break» | «continue» | «return» => exact Walks.exit
    obtain ⟨n, hleaves⟩ := hbody.fragment.complete 0 bs e [] hrun hk
    rw [append_nil] at hleaves
    exact ⟨n + 1, hleaves.walks_unmarked (hmarks entry Nat.zero_lt_two)⟩

theorem exists_isWalk_iff_exists_runs (function : Json)
    (h : body.isStructured false) (bs : List Nat) :
    (∃ w, (drawn function body).graph.IsWalk w ∧ (drawn function body).graph.branchesAlong w = bs) ↔
      ∃ e, body.Runs 0 bs e := by
  obtain ⟨n, hn⟩ := exists_tallyOf_eq body 0 h
  exact exists_isWalk_iff_of_tracks function (tracks_addTree body h 0) (by rw [hn]) bs

/-- The branches along the walks through the flow graph of a structured body, from its entry to its
exit, are those that its runs take. -/
theorem branchesAlong_walks_iff_runs (function : Json)
    (h : body.isStructured false = true) (htexts : body.hasTexts = true) :
    ∃ d, ofBody function body = .ok d ∧ ∀ bs,
      (∃ w, d.graph.IsWalk w ∧ d.graph.branchesAlong w = bs) ↔ ∃ e, body.Runs 0 bs e := by
  obtain ⟨_, hgotos⟩ := drawn_of_isStructured function h
  refine ⟨drawn function body, ?_, fun bs => ?_⟩
  · rw [ofBody, checkTree_eq_ok body h htexts]
    show (forM (drawn function body).gotos (fun x => checkName x.2) >>= fun _ =>
      Except.ok (drawn function body)) = _
    rw [hgotos]
    rfl
  · exact exists_isWalk_iff_exists_runs function h bs

/-- A loop around a switch without a default: its first case falls into the second, which leaves the
switch after a conditional expression. -/
def sampleBody : Tree :=
  let bare := fun kind ts =>
    Tree.node ⟨kind, .null, .null, .null, .null, .null, .null, .null, .null⟩ ts
  bare .compound [
    bare .whileLoop [bare .switch [
      bare .case [bare .expression []],
      bare .case [bare .expression [bare .ternary []], bare .break []]]],
    bare .return []]

theorem branchesAlong_walks_iff_runs_sample :
    sampleBody.isStructured false = true ∧ sampleBody.hasTexts = true ∧
      ∃ d, ofBody .null sampleBody = .ok d ∧ ∀ bs,
        (∃ w, d.graph.IsWalk w ∧ d.graph.branchesAlong w = bs) ↔ ∃ e, sampleBody.Runs 0 bs e :=
  ⟨by decide, by decide, branchesAlong_walks_iff_runs .null (by decide) (by decide)⟩

end Draft

end Branchwise
