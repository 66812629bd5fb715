import Branchwise.Proofs.Flow.Growth

/-!
# Drawing step by step

A construction takes single steps: it adds a node, an edge, a branch, an arm, a label or a jump.
Each step is taken in a `Scope`, which says from which nodes control may go on, where it may go,
which decisions and branches are not complete and which loops are not closed.  An edge uses its
source up, so nothing leaves the nodes that are still in the scope.  All statement trees are drawn
by such steps, with jumps to labels or without, so what a step keeps holds of all that is drawn.
-/

namespace Branchwise

open List FlowGraph

namespace FlowGraph

variable (g : FlowGraph)

def armAt (u : Nat) : Option Nat := (g.node? u).bind FlowNode.branch

def loopExitAt (u : Nat) : Option Nat := (g.node? u).bind FlowNode.loopExit

def kindAt (u : Nat) : Option FlowNodeKind := (g.node? u).map FlowNode.kind

end FlowGraph

namespace Draft

/-- What a construction has to deal with: the loops that are not closed, the nodes from which
control may go on, those where it may go, and the branches that may get an arm. -/
structure Scope where
  pending : Nat → Prop
  free : Nat → Prop
  targets : Nat → Prop
  known : Branch → Prop

namespace Scope

variable (s : Scope)

def Decides (u : Nat) : Prop := ∃ b, s.known b ∧ b.decisionNode = u

/-- New edges leave the free nodes and the decisions. -/
def Source (u : Nat) : Prop := s.free u ∨ s.Decides u

abbrev add (x : Nat) : Scope :=
  { s with free := fun u => s.free u ∨ u = x, targets := fun v => s.targets v ∨ v = x }

/-- Control has gone on from one node to another. -/
abbrev move (current last : Option Nat) : Scope :=
  { s with free := fun u => s.free u ∧ current ≠ some u ∨ last = some u }

/-- Control has gone on to a node that was added. -/
abbrev visit (current : Option Nat) (x : Nat) : Scope :=
  { s.move current (some x) with targets := fun v => s.targets v ∨ v = x }

/-- A decision was added where control was, and control is at its two arms. -/
abbrev fork (current : Option Nat) (x : Nat) (loopExit : Option Nat) : Scope :=
  { s with
    pending := fun u => s.pending u ∨ u = x ∧ loopExit ≠ none
    free := fun u => s.free u ∧ current ≠ some u ∨ u = x + 1 ∨ u = x + 2
    targets := fun v => s.targets v ∨ v = x }

/-- A loop that tests its guard first was added where control was: its end, its test and the arms of
the test. -/
abbrev loop (current : Option Nat) (x : Nat) : Scope := (s.add x).fork current (x + 1) (some x)

/-- A loop that tests its guard last was added where control was: its entry, its end and the place
of its test. -/
abbrev enter (current : Option Nat) (x : Nat) : Scope :=
  { s with
    pending := fun u => s.pending u ∨ u = x
    free := fun u => s.free u ∧ current ≠ some u ∨ u = x ∨ u = x + 1 ∨ u = x + 2
    targets := fun v => s.targets v ∨ v = x + 1 ∨ v = x + 2 }

/-- A switch was added where control was: its decision with the branches, and its end. -/
abbrev switch (current : Option Nat) (x : Nat) (ctx : SwitchContext) : Scope :=
  { s with
    free := fun u => s.free u ∧ current ≠ some u ∨ u = x + 1
    targets := fun v => s.targets v ∨ v = x + 1
    known := fun b => s.known b ∨ b ∈ ctx.branches }

structure Within (s s' : Scope) : Prop where
  pending_iff : ∀ u, s.pending u ↔ s'.pending u
  free_of : ∀ u, s.free u → s'.free u
  targets_of : ∀ v, s.targets v → s'.targets v
  known_of : ∀ b, s.known b → s'.known b

theorem move_within_visit (current : Option Nat) (x : Nat) :
    (s.move current (some x)).Within (s.visit current x) :=
  ⟨fun _ => Iff.rfl, fun _ h => h, fun _ h => .inl h, fun _ h => h⟩

end Scope

inductive Step (s : Scope) (d : Draft) : Scope → Draft → Prop
  | forget {s' : Scope} (h : s'.Within s) : Step s d s' d
  | point (n : FlowNode) (hid : n.id = d.size) (hbranch : n.branch = none)
      (hloop : n.loopExit = none) (hkind : n.kind ≠ .decision ∧ n.kind ≠ .loopEntry) :
      Step s d (s.add d.size) (d.push n)
  | decision (n : FlowNode) {specs : List BranchSpec} {bs : List Branch} (hid : n.id = d.size)
      (hbranch : n.branch = none) (hkind : n.kind = .decision)
      (hbs : Numbered d.size d.branches.length specs bs) :
      Step s d
        { s with
          pending := fun u => s.pending u ∨ u = d.size ∧ n.loopExit ≠ none
          targets := fun v => s.targets v ∨ v = d.size
          known := fun b => s.known b ∨ b ∈ bs }
        (d.divide n none bs)
  | entry (n : FlowNode) (src : Option Nat) (hid : n.id = d.size) (hbranch : n.branch = none)
      (hkind : n.kind = .loopEntry) (hsrc : ∀ u, src = some u → s.free u) :
      Step s d
        { s with
          pending := fun u => s.pending u ∨ u = d.size
          free := fun u => s.free u ∧ src ≠ some u ∨ u = d.size }
        (link src d.size .fallThrough (d.push n)).2
  | link {a : Option Nat} {b : Nat} (kind : FlowEdgeKind)
      (ha : ∀ u, a = some u → s.free u) (hb : s.targets b) :
      Step s d (s.move a none) (link a b kind d).2
  /-- A loop that tests its guard first is left by the other arm of its test. -/
  | close (top f e : Nat) (htest : d.Edge top f) (hleave : d.Edge f e)
      (hexit : d.graph.loopExitAt top = some e) (he : s.targets e) :
      Step s d { s with pending := fun u => s.pending u ∧ u ≠ top } d
  /-- A loop that tests its guard last is repeated by one arm of its test and left by the other. -/
  | last (top test t f e : Nat) {n : FlowNode} (htop : s.pending top)
      (hnode : d.graph.node? top = some n) (hkind : n.kind = .loopEntry) (hbranch : n.branch = none)
      (hexit : n.loopExit = some e) (ht : s.free t) (hf : s.free f) (hne : t ≠ f) (hle : top ≤ t)
      (harm : d.graph.armAt t ≠ none) (htest : d.Edge test t) (hother : d.Edge test f)
      (he : s.targets e) :
      Step s d
        { s with
          pending := fun u => s.pending u ∧ u ≠ top
          free := fun u => s.free u ∧ u ≠ t ∧ u ≠ f }
        (link (some f) e .fallThrough (link (some t) top .backEdge d).2).2
  | arm {b : Branch} (kind : FlowEdgeKind) (label : Option String) (hb : s.known b) :
      Step s d { s with free := fun u => s.free u ∨ u = d.size } (addArm b kind label d).2
  | label (name : Json) {id : Nat} (hid : s.targets id) : Step s d s (addLabel name id d).2
  | goto (name : Json) {id : Nat} (hid : s.free id) :
      Step s d (s.move (some id) none) (addGoto id name d).2

inductive Steps (s : Scope) (d : Draft) : Scope → Draft → Prop
  | refl : Steps s d s d
  | tail {s₁ s₂ : Scope} {d₁ d₂ : Draft} (h : Steps s d s₁ d₁) (hstep : Step s₁ d₁ s₂ d₂) :
      Steps s d s₂ d₂

variable {s s' s'' : Scope} {d d' d'' : Draft} {current : Option Nat} {targets : JumpTargets}
  {p q : Prop} {r : Option Nat × Draft} {l : Label} {ts : List Tree} {id : Nat}

theorem Steps.trans (h : Steps s d s' d') (h' : Steps s' d' s'' d'') : Steps s d s'' d'' := by
  induction h' with
  | refl => exact h
  | tail _ hstep ih => exact ih.tail hstep

theorem Steps.forget (h : Steps s d s' d') (hs : s''.Within s') : Steps s d s'' d' :=
  h.tail (.forget hs)

theorem Step.steps (h : Step s d s' d') (hs : s''.Within s') : Steps s d s'' d' :=
  (Steps.refl.tail h).forget hs

/-! ## What a step adds -/

/-- The nodes that a scope speaks of are in the draft, and nothing leaves the free ones yet. -/
structure Scoped (s : Scope) (d : Draft) : Prop where
  two_le : 2 ≤ d.size
  sourced : d.Sourced
  pending_lt : ∀ u, s.pending u → u < d.size
  free_lt : ∀ u, s.free u → u < d.size
  free_open : ∀ u, s.free u → d.Open u
  decides_lt : ∀ u, s.Decides u → u < d.size
  apart : ∀ u, s.Decides u → ¬s.free u

/-- How a step changes a draft and its scope, where the new edges leave some of the sources.  Where
nothing is said nothing is new. -/
structure Evolves (s : Scope) (d : Draft) (σ : Nat → Prop) (s' : Scope) (d' : Draft) : Prop where
  grown : Grown d d' σ
  source_of : ∀ u, σ u → s.Source u
  pending_of : ∀ u, s'.pending u → s.pending u ∨ u < d'.size := by exact fun _ => .inl
  free_of : ∀ u, s'.free u → s.free u ∧ ¬σ u ∨ d.size ≤ u ∧ u < d'.size ∧ d'.Open u := by
    exact fun _ hu => .inl ⟨hu, not_false⟩
  decides_of : ∀ u, s'.Decides u → s.Decides u ∨ d.size ≤ u ∧ u < d'.size ∧ ¬s'.free u := by
    exact fun _ => .inl

section

variable {σ : Nat → Prop} (h : Evolves s d σ s' d')
include h

theorem Evolves.source (u : Nat) (hu : u < d.size) (hsource : s'.Source u) : s.Source u := by
  rcases hsource with hfree | hdecides
  · exact .inl ((h.free_of u hfree).resolve_right fun hn => absurd hu (Nat.not_lt.mpr hn.1)).1
  · exact .inr ((h.decides_of u hdecides).resolve_right fun hn => absurd hu (Nat.not_lt.mpr hn.1))

theorem Evolves.scoped (hs : Scoped s d) : Scoped s' d' where
  two_le := hs.two_le.trans h.grown.size_le
  sourced := h.grown.sourced hs.sourced
  pending_lt := by
    intro u hu
    rcases h.pending_of u hu with hold | hlt
    · exact (hs.pending_lt u hold).trans_le h.grown.size_le
    · exact hlt
  free_lt := by
    intro u hu
    rcases h.free_of u hu with ⟨hold, _⟩ | ⟨_, hlt, _⟩
    · exact (hs.free_lt u hold).trans_le h.grown.size_le
    · exact hlt
  free_open := by
    intro u hu
    rcases h.free_of u hu with ⟨hold, hnot⟩ | ⟨_, _, hopen⟩
    · exact (hs.free_open u hold).grown h.grown (hs.free_lt u hold) hnot
    · exact hopen
  decides_lt := by
    intro u hu
    rcases h.decides_of u hu with hold | ⟨_, hlt, _⟩
    · exact (hs.decides_lt u hold).trans_le h.grown.size_le
    · exact hlt
  apart := by
    intro u hu hfree
    rcases h.decides_of u hu with hold | ⟨_, _, hnot⟩
    · rcases h.free_of u hfree with ⟨hfree, _⟩ | ⟨hle, _⟩
      · exact hs.apart u hold hfree
      · exact absurd (hs.decides_lt u hold) (Nat.not_lt.mpr hle)
    · exact hnot hfree

end

theorem Scoped.evolves_link {a : Option Nat} (hs : Scoped s d) (b : Nat) (kind : FlowEdgeKind)
    (ha : ∀ u, a = some u → s.free u) :
    Evolves s d (a = some ·) (s.move a none) (link a b kind d).2 where
  grown := grown_link d b kind fun u hu => hs.free_lt u (ha u hu)
  source_of := fun u hu => .inl (ha u hu)
  free_of := fun _ hu => .inl (hu.resolve_right nofun)

theorem Step.evolves (h : Step s d s' d') (hs : Scoped s d) : ∃ σ, Evolves s d σ s' d' := by
  have hpush (n : FlowNode) : d.size < (d.push n).size := by
    rw [size_push]
    exact Nat.lt_succ_self _
  have hopen : d.Open d.size := hs.sourced.open le_rfl
  have hsame {d' : Draft} (heq : d'.graph = d.graph) : Grown d d' fun _ => False :=
    (Grown.refl d _).of_graph_eq heq
  cases h with
  | forget h =>
    exact ⟨_,
      { grown := hsame rfl, source_of := nofun
        pending_of := fun u hu => .inl ((h.pending_iff u).mp hu)
        free_of := fun u hu => .inl ⟨h.free_of u hu, not_false⟩
        decides_of := fun u ⟨b, hb, hdec⟩ => .inl ⟨b, h.known_of b hb, hdec⟩ }⟩
  | point n =>
    refine ⟨_, { grown := grown_push d n fun _ => False, source_of := nofun, free_of := ?_ }⟩
    rintro u (hu | rfl)
    · exact .inl ⟨hu, not_false⟩
    · exact .inr ⟨le_rfl, hpush n, hopen⟩
  | @decision n _ bs hid hbranch hkind hbs =>
    have hnot : ¬s.free d.size := fun hf => absurd (hs.free_lt _ hf) (Nat.lt_irrefl _)
    refine ⟨_,
      { grown := (grown_push d n fun _ => False).of_graph_eq rfl, source_of := nofun
        pending_of := ?_, decides_of := ?_ }⟩
    · rintro u (hu | ⟨rfl, _⟩)
      · exact .inl hu
      · exact .inr (hpush n)
    · rintro u ⟨b, hb | hb, rfl⟩
      · exact .inl ⟨b, hb, rfl⟩
      · rw [(hbs.fresh b hb).1]
        exact .inr ⟨le_rfl, hpush n, hnot⟩
  | entry n src hid hbranch hkind hsrc =>
    have g := grown_push d n (src = some ·)
    have hlt : ∀ u, src = some u → u < d.size := fun u hu => hs.free_lt u (hsrc u hu)
    have hsize := (hpush n).trans_le (size_link (d.push n) src d.size .fallThrough).ge
    refine ⟨_,
      { grown := g.trans
          (grown_link _ d.size .fallThrough fun u hu => (hlt u hu).trans_le g.size_le)
          fun _ _ h => h
        source_of := fun u hu => .inl (hsrc u hu), pending_of := ?_, free_of := ?_ }⟩
    · rintro u (hu | rfl)
      · exact .inl hu
      · exact .inr hsize
    · rintro u (hu | rfl)
      · exact .inl hu
      · refine .inr ⟨le_rfl, hsize, fun v he => ?_⟩
        rcases (edge_link (d.push n) src d.size .fallThrough d.size v).mp he with he | ⟨hc, _⟩
        · exact hopen v he
        · exact absurd (hlt _ hc) (Nat.lt_irrefl _)
  | link kind hsrc => exact ⟨_, hs.evolves_link _ kind hsrc⟩
  | close =>
    exact ⟨_, { grown := hsame rfl, source_of := nofun, pending_of := fun _ hu => .inl hu.1 }⟩
  | last top test t f e htop hnode hkind hbranch hexit ht hf =>
    have h1 := hs.evolves_link top .backEdge (a := some t) fun u hu => Option.some.inj hu ▸ ht
    refine ⟨fun u => u = t ∨ u = f,
      { grown := ?_, source_of := ?_, pending_of := fun _ hu => .inl hu.1
        free_of := fun u hu => .inl ⟨hu.1, not_or.mpr hu.2⟩ }⟩
    · refine (h1.grown.mono fun u _ hu => .inl (Option.some.inj hu).symm).trans (grown_link _ e
        .fallThrough fun u hu => ?_) fun u _ hu => .inr (Option.some.inj hu).symm
      exact (hs.free_lt u (Option.some.inj hu ▸ hf)).trans_le h1.grown.size_le
    · rintro u (rfl | rfl)
      exacts [.inl ht, .inl hf]
  | @arm b kind label hb =>
    have hdec : s.Decides b.decisionNode := ⟨b, hb, rfl⟩
    have hlt := hs.decides_lt _ hdec
    refine ⟨_,
      { grown := grown_addArm d b kind label hlt, source_of := fun u hu => .inr (hu ▸ hdec)
        free_of := ?_ }⟩
    rintro u (hu | rfl)
    · refine .inl ⟨hu, ?_⟩
      rintro rfl
      exact hs.apart _ hdec hu
    · refine .inr ⟨le_rfl, hpush _, fun v he => ?_⟩
      rcases (edge_addArm d b kind label d.size v).mp he with he | ⟨heq, _⟩
      · exact hopen v he
      · exact hlt.ne' heq
  | label => exact ⟨_, { grown := hsame rfl, source_of := nofun }⟩
  | goto =>
    exact ⟨_,
      { grown := hsame rfl, source_of := nofun
        free_of := fun u hu => .inl ⟨(hu.resolve_right nofun).1, not_false⟩ }⟩

theorem Steps.evolves (h : Steps s d s' d') (hs : Scoped s d) :
    Grown d d' s.Source ∧ Scoped s' d' ∧ ∀ u < d.size, s'.Source u → s.Source u := by
  induction h with
  | refl => exact ⟨Grown.refl d _, hs, fun _ _ h => h⟩
  | tail _ hstep ih =>
    obtain ⟨g, hs', hsource⟩ := ih
    obtain ⟨σ, he⟩ := hstep.evolves hs'
    refine ⟨g.trans he.grown fun u hu hσ => hsource u hu (he.source_of u hσ), he.scoped hs', ?_⟩
    exact fun u hu hu' => hsource u hu (he.source u (hu.trans_le g.size_le) hu')

/-! ## Where control goes on -/

/-- Control is at a free node, and the jumps and the labels of a statement have their targets and
branches in the scope. -/
structure Guided (s : Scope) (d : Draft) (current : Option Nat) (targets : JumpTargets)
    (labelled : Prop) : Prop where
  inScope : Scoped s d
  current_free : ∀ u, current = some u → s.free u
  exit_target : s.targets exit
  break_target : ∀ v, targets.breakTo = some v → s.targets v
  continue_target : ∀ v, targets.continueTo = some v → s.targets v
  known : labelled → ∀ ctx, targets.switch = some ctx → ∀ b ∈ ctx.branches, s.known b

/-- A statement was drawn after the node where control was, and gives the node where it goes on. -/
structure Stepped (s : Scope) (d : Draft) (current : Option Nat) (r : Option Nat × Draft) :
    Prop where
  steps : Steps s d (s.move current r.1) r.2
  last_new : ∀ w, r.1 = some w → current = some w ∨ d.size ≤ w

/-- A drawing of statements, with labels of the surrounding switch or without, wherever control
is. -/
def Draws (labelled : Prop) (draw : Option Nat → JumpTargets → Drawing (Option Nat)) : Prop :=
  ∀ (s : Scope) (d : Draft) (current : Option Nat) (targets : JumpTargets),
    Guided s d current targets labelled → Stepped s d current (draw current targets d)

section

variable (hg : Guided s d current targets q)
include hg

theorem Guided.mono (hpq : p → q) : Guided s d current targets p :=
  { hg with known := fun hp => hg.known (hpq hp) }

theorem Guided.later {c : Option Nat} (h : Steps s d s' d')
    (hcur : ∀ u, c = some u → s'.free u) (htargets : ∀ v, s.targets v → s'.targets v)
    (hknown : ∀ b, s.known b → s'.known b) : Guided s' d' c targets q where
  inScope := (h.evolves hg.inScope).2.1
  current_free := hcur
  exit_target := htargets _ hg.exit_target
  break_target := fun v hv => htargets v (hg.break_target v hv)
  continue_target := fun v hv => htargets v (hg.continue_target v hv)
  known := fun hq ctx hctx b hb => hknown b (hg.known hq ctx hctx b hb)

theorem Guided.inLoop {b c : Nat} (hb : s.targets b) (hc : s.targets c) :
    Guided s d current ⟨some b, some c, targets.switch⟩ q :=
  { hg with
    break_target := fun _ hv => Option.some.inj hv ▸ hb
    continue_target := fun _ hv => Option.some.inj hv ▸ hc }

theorem Guided.current_lt (u : Nat) (hu : current = some u) : u < d.size :=
  hg.inScope.free_lt u (hg.current_free u hu)

theorem Guided.getD_target {c : Option Nat} (hc : ∀ v, c = some v → s.targets v) :
    s.targets (c.getD exit) := by
  cases c with
  | none => exact hg.exit_target
  | some v => exact hc v rfl

theorem Guided.stay : Stepped s d current (current, d) := by
  have := hg.current_free
  refine ⟨Steps.refl.forget ?_, fun _ => .inl⟩
  constructor <;> grind

end

section

variable (h : Stepped s d current r) (hs : Scoped s d)
include h hs

/-- What is free after a statement that follows another is also free after the two in turn. -/
theorem Stepped.within (last : Option Nat) :
    (s.move current last).Within ((s.move current r.1).move r.1 last) := by
  have := h.last_new
  have := hs.free_lt
  constructor <;> grind

theorem Stepped.trans {r' : Option Nat × Draft}
    (h' : Stepped (s.move current r.1) r.2 r.1 r') : Stepped s d current r' where
  steps := (h.steps.trans h'.steps).forget (h.within hs r'.1)
  last_new := by
    intro w hw
    rcases h'.last_new w hw with hw | hw
    · exact h.last_new w hw
    · exact .inr ((h.steps.evolves hs).1.size_le.trans hw)

/-- The node where control goes on leads to a target. -/
theorem Stepped.link_last {dst : Nat} (hdst : s.targets dst) (kind : FlowEdgeKind) :
    Steps (s.move current r.1) r.2 (s.move current none) (link r.1 dst kind r.2).2 :=
  Step.steps (.link kind (fun _ hu => .inr hu) hdst) (h.within hs none)

theorem Stepped.link {dst : Nat} (hdst : s.targets dst) (kind : FlowEdgeKind) :
    Steps s d (s.move current none) (link r.1 dst kind r.2).2 :=
  h.steps.trans (h.link_last hs hdst kind)

end

/-- Control is where a first statement has left it. -/
theorem Stepped.guided (h : Stepped s d current r) (hg : Guided s d current targets p) :
    Guided (s.move current r.1) r.2 r.1 targets p :=
  hg.later h.steps (fun _ hu => .inr hu) (fun _ h => h) fun _ h => h

theorem Draws.mono {draw : Option Nat → JumpTargets → Drawing (Option Nat)} (h : Draws p draw)
    (hpq : p → q) : Draws q draw :=
  fun s d current targets hg => h s d current targets (hg.mono hpq)

theorem Draws.andThen {draw draw' : Option Nat → JumpTargets → Drawing (Option Nat)}
    (h : Draws p draw) (h' : Draws q draw') :
    Draws (p ∨ q) fun current targets d =>
      draw' (draw current targets d).1 targets (draw current targets d).2 := by
  intro s d current targets hg
  have h1 := h s d current targets (hg.mono .inl)
  exact h1.trans hg.inScope (h' _ _ _ targets (h1.guided (hg.mono .inr)))

theorem Steps.drawn {x : Nat} (h : Steps s d (s.move current (some x)) d') (hx : d.size ≤ x) :
    Stepped s d current (some x, d') :=
  ⟨h, fun _ hw => .inr (Option.some.inj hw ▸ hx)⟩

theorem ifEntered_within (s : Scope) (current : Option Nat) (x : Nat) (d : Draft) :
    (s.move current (ifEntered x d).1).Within (s.move current (some x)) := by
  unfold Draft.ifEntered
  constructor <;> grind

theorem Steps.ifEntered {x : Nat} (h : Steps s d (s.move current (some x)) d') (hx : d.size ≤ x) :
    Stepped s d current (ifEntered x d') := by
  have h' := h.forget (ifEntered_within s current x d')
  unfold Draft.ifEntered at h' ⊢
  split
  · rename_i hempty
    rw [if_pos hempty] at h'
    exact ⟨h', nofun⟩
  · exact h.drawn hx

/-! ## Statements without inner statements -/

/-- A decision is added where control is, with its branches. -/
theorem Guided.divide (hg : Guided s d current targets p) {n : FlowNode} {specs : List BranchSpec}
    {bs : List Branch} (hid : n.id = d.size) (hbranch : n.branch = none)
    (hkind : n.kind = .decision)
    (hbs : Numbered d.size d.branches.length specs bs) :
    Steps s d
      { s with
        pending := fun u => s.pending u ∨ u = d.size ∧ n.loopExit ≠ none
        free := fun u => s.free u ∧ current ≠ some u
        targets := fun v => s.targets v ∨ v = d.size
        known := fun b => s.known b ∨ b ∈ bs }
      (d.divide n current bs) := by
  have h := (Steps.refl.tail (.decision n hid hbranch hkind hbs)).tail
    (.link .fallThrough hg.current_free (.inr rfl))
  have heq : (link current d.size .fallThrough (d.divide n none bs)).2 = d.divide n current bs := by
    cases current <;> rfl
  exact heq ▸ h.forget (by constructor <;> grind)

theorem Guided.forks (hg : Guided s d current targets p) (l : Label)
    (thenTree elseTree : Option Tree) (loopExit : Option Nat) :
    Steps s d (s.fork current d.size loopExit)
      (addTwoWay l current thenTree elseTree loopExit d).2 := by
  obtain ⟨t, f, hbs, heq⟩ := exists_addTwoWay d l current thenTree elseTree loopExit
  rw [heq]
  generalize hn : FlowNode.mk d.size .decision _ _ _ none loopExit = n
  have hsize := size_divide d n current [t, f]
  have h := hg.divide (n := n) (hn ▸ rfl) (hn ▸ rfl) (hn ▸ rfl) hbs
  refine ((h.tail (.arm .branchTrue none (.inr mem_cons_self))).tail
    (.arm .branchFalse none (.inr (mem_cons_of_mem t mem_cons_self)))).forget ?_
  constructor <;> grind [size_addArm]

/-- Both arms of a decision lead to a join that is added after them. -/
theorem Guided.joinArms (hg : Guided s d current targets p) (hsize : d'.size = d.size + 3)
    (line : Json) :
    Steps (s.fork current d.size none) d' (s.move current (some d'.size))
      (link (some (d.size + 2)) d'.size .fallThrough (link (some (d.size + 1)) d'.size .fallThrough
        (d'.push (d'.point .join line))).2).2 := by
  have h1 := (Steps.refl (s := s.fork current d.size none)).tail
    (.point (d'.point .join line) rfl rfl rfl ⟨nofun, nofun⟩)
  have h2 := (h1.tail (.link (a := some (d.size + 1)) .fallThrough (by
    grind) (.inr rfl))).tail (.link (a := some (d.size + 2)) .fallThrough (by
    grind) (.inr rfl))
  have := hg.inScope.free_lt
  refine h2.forget ?_
  constructor <;> grind

theorem draws_addTernary (e : Tree) : Draws p fun current _ => addTernary current e := by
  intro s d current targets hg
  have hsize := (forked_addTwoWay d e.label current e.children[0]? e.children[1]? none).size_eq
  exact ⟨(hg.forks e.label _ _ none).trans (hg.joinArms hsize e.label.line),
    fun w hw => .inr (Option.some.inj hw ▸ by omega)⟩

theorem draws_addTernaries (es : List Tree) :
    Draws p fun current _ => addTernaries current es := by
  induction es with
  | nil => exact fun _ _ _ _ hg => hg.stay
  | cons e es ih =>
    intro s d current targets hg
    simp only [addTernaries_cons]
    exact ((draws_addTernary e).andThen ih).mono or_self_iff.mp s d current targets hg

theorem Guided.visit (hg : Guided s d current targets p) (n : FlowNode) (hid : n.id = d.size)
    (hbranch : n.branch = none) (hloop : n.loopExit = none)
    (hkind : n.kind ≠ .decision ∧ n.kind ≠ .loopEntry) :
    Steps s d (s.visit current d.size) (link current d.size .fallThrough (d.push n)).2 := by
  have := hg.current_lt
  refine ((Steps.refl.tail (.point n hid hbranch hloop hkind)).tail
    (.link .fallThrough (fun u hu => .inl (hg.current_free u hu)) (.inr rfl))).forget ?_
  constructor <;> grind

/-- A node that was visited leads to a target, or ends in a jump to a label. -/
theorem Guided.leave (hg : Guided s d current targets p) :
    (s.move current none).Within ((s.visit current d.size).move (some d.size) none) := by
  have := hg.inScope.free_lt
  constructor <;> grind

theorem Guided.jump (hg : Guided s d current targets p) {dst : Nat} (hdst : s.targets dst)
    (kind : FlowEdgeKind) :
    Steps (s.visit current d.size) d' (s.move current none) (link (some d.size) dst kind d').2 :=
  Step.steps (.link kind (fun _ hu => .inr hu) (.inl hdst)) hg.leave

theorem draws_addLeafNode (t : Tree) : Draws p (addLeafNode t) := by
  intro s d current targets hg
  have h := hg.visit (d.stated .statement t.label (shownText t.label)) rfl rfl rfl ⟨nofun, nofun⟩
  unfold addLeafNode
  dsimp only
  generalize (link current d.size .fallThrough (d.push _)).2 = d2 at h ⊢
  have hjump (dst : Nat) (kind : FlowEdgeKind) (hdst : s.targets dst) :
      Stepped s d current (none, (addEdge d.size dst kind none d2).2) :=
    ⟨h.trans (hg.jump hdst kind), nofun⟩
  cases t.kind with
  | «return» => exact hjump _ _ hg.exit_target
  | «break» => exact hjump _ _ (hg.getD_target hg.break_target)
  | «continue» => exact hjump _ _ (hg.getD_target hg.continue_target)
  | goto => exact ⟨(h.tail (.goto _ (.inr rfl))).forget hg.leave, nofun⟩
  | compound | ifElse | whileLoop | doLoop | forLoop | switch | case | default | label | call
  | declaration | expression | ternary =>
    exact (h.forget (s.move_within_visit current d.size)).drawn le_rfl

theorem draws_addLeaf (t : Tree) : Draws p (addLeaf t) := by
  intro s d current targets hg
  rw [addLeaf_eq]
  exact ((draws_addTernaries (t.collect .ternary)).andThen (draws_addLeafNode t)).mono
    (·.elim id id) s d current targets hg

/-! ## Loops -/

theorem Guided.point (hg : Guided s d current targets p) (kind : FlowNodeKind) (line : Json)
    (hkind : kind ≠ .decision ∧ kind ≠ .loopEntry) :
    Steps s d (s.add d.size) (d.push (d.point kind line)) ∧
      Guided (s.add d.size) (d.push (d.point kind line)) current targets p := by
  have h := Steps.refl.tail (.point (s := s) (d.point kind line) rfl rfl rfl hkind)
  exact ⟨h, hg.later h (fun u hu => .inl (hg.current_free u hu)) (fun _ h => .inl h) fun _ h => h⟩

/-- A point that was added before a statement leads to a target after it. -/
theorem Guided.leavePoint (hg : Guided s d current targets p) {dst : Nat} (hdst : s.targets dst)
    (kind : FlowEdgeKind) :
    Steps ((s.add d.size).move current none) d' (s.move current none)
      (link (some d.size) dst kind d').2 := by
  have := hg.current_lt
  have := hg.inScope.free_lt
  refine Step.steps (.link kind (by grind) (.inl hdst)) ?_
  constructor <;> grind

/-- A loop that tests its guard first was added up to its test.  When control has come out of the
body, the other arm of the test leads to the end of the loop. -/
structure Looped (s : Scope) (d : Draft) (current : Option Nat) (targets : JumpTargets) (p : Prop)
    (d' : Draft) : Prop where
  size_eq : d'.size = d.size + 4
  steps : Steps s d (s.loop current d.size) d'
  guided : Guided (s.loop current d.size) d' (some (d.size + 2)) targets p
  finish : ∀ d'', Steps (s.loop current d.size) d'
    ((s.loop current d.size).move (some (d.size + 2)) none) d'' →
    Steps ((s.loop current d.size).move (some (d.size + 2)) none) d''
      (s.move current (some d.size)) (link (some (d.size + 3)) d.size .fallThrough d'').2

theorem Guided.looped (hg : Guided s d current targets p) (l : Label) (body : Option Tree) :
    Looped s d current targets p
      (addTwoWay l current body none (some d.size) (d.push (d.point .loopExit l.line))).2 := by
  obtain ⟨h1, hg1⟩ := hg.point .loopExit l.line ⟨nofun, nofun⟩
  have h2 := h1.trans (hg1.forks l body none (some d.size))
  have hf := forked_addTwoWay (d.push (d.point .loopExit l.line)) l current body none (some d.size)
  rw [size_push] at h2
  generalize (addTwoWay l current body none (some d.size) _).2 = d2 at hf h2 ⊢
  obtain ⟨hsize, -, hedge, ⟨n, hnode, -, hloop⟩, -, -⟩ := hf
  rw [size_push] at hsize hedge hnode
  have hg2 : Guided (s.loop current d.size) d2 (some (d.size + 2)) targets p :=
    hg.later h2 (by grind) (fun _ h => .inl (.inl h)) fun _ h => h
  refine ⟨hsize, h2, hg2, fun d' h' => ?_⟩
  have g := (h'.evolves hg2.inScope).1
  have h3 := (Steps.refl
    (s := (s.loop current d.size).move (some (d.size + 2)) none) (d := d')).tail
    (.link (a := some (d.size + 3)) (b := d.size) .fallThrough (by grind)
      (.inl (.inr rfl)))
  have h4 := h3.tail (.close (d.size + 1) (d.size + 3) d.size ?_ ?_ ?_ (.inl (.inr rfl)))
  · have := hg.current_lt
    have := hg.inScope.pending_lt
    have := hg.inScope.free_lt
    refine h4.forget ?_
    constructor <;> grind
  · exact (edge_link ..).mpr (.inl (g.edge_of _ _ ((hedge _ _).mpr (.inr (.inr ⟨rfl, .inr rfl⟩)))))
  · exact (edge_link ..).mpr (.inr ⟨rfl, rfl⟩)
  · rw [loopExitAt, node?_link, g.node_eq _ (by omega), hnode]
    exact hloop

theorem Looped.drawn (h : Looped s d current targets p d')
    (h' : Steps (s.loop current d.size) d'
      ((s.loop current d.size).move (some (d.size + 2)) none) d'') :
    Stepped s d current (some d.size, (link (some (d.size + 3)) d.size .fallThrough d'').2) :=
  ⟨(h.steps.trans h').trans (h.finish d'' h'), fun _ hw => .inr (Option.some.inj hw).le⟩

/-- A loop that tests its guard last was added up to its body. -/
structure Opened (s : Scope) (d : Draft) (current : Option Nat) (targets : JumpTargets) (p : Prop)
    (l : Label) (d' : Draft) : Prop where
  size_eq : d'.size = d.size + 3
  steps : Steps s d (s.enter current d.size) d'
  guided : Guided (s.enter current d.size) d' (some d.size) targets p
  branches_eq : d'.branches = d.branches
  node_eq : d'.graph.node? d.size = some (d.loopEntry l)
  edge_iff : ∀ u v, d'.Edge u v ↔ d.Edge u v ∨ current = some u ∧ v = d.size
  marks_eq : ∀ x, d.size ≤ x → x < d'.size → d'.graph.marks x = []

theorem Guided.opened (hg : Guided s d current targets p) (l : Label) :
    let d1 := d.push (d.loopEntry l)
    let d3 := (link current d.size .fallThrough (d1.push (d1.point .loopExit l.line))).2
    Opened s d current targets p l (d3.push (d3.point .join l.line)) := by
  intro d1 d3
  -- The entry may as well be entered before the end of the loop is added.
  let d2 := (link current d.size .fallThrough d1).2
  have hd3 : d3 = d2.push (d1.point .loopExit l.line) := by
    cases current <;> rfl
  have hsize2 : d2.size = d.size + 1 := by rw [size_link, size_push]
  have hsize3 : d3.size = d.size + 2 := by rw [hd3, size_push, hsize2]
  have hplain : (FlowNodeKind.loopExit ≠ .decision ∧ FlowNodeKind.loopExit ≠ .loopEntry) ∧
      FlowNodeKind.join ≠ .decision ∧ FlowNodeKind.join ≠ .loopEntry := by decide
  have h2 : Steps s d _ d2 := Steps.refl.tail (.entry _ current rfl rfl rfl hg.current_free)
  have h3 : Steps s d _ d3 :=
    hd3 ▸ h2.tail (.point (d1.point .loopExit l.line) (size_link ..).symm rfl rfl hplain.1)
  have h4 := h3.tail (.point (d3.point .join l.line) rfl rfl rfl hplain.2)
  have hnode : (d3.push (d3.point .join l.line)).graph.node? d.size = some (d.loopEntry l) := by
    rw [(grown_push d3 _ fun _ => False).node_eq _ (by omega), hd3,
      (grown_push d2 _ fun _ => False).node_eq _ (by omega), node?_link, node?_push_self]
  have htop : Steps s d (s.enter current d.size) _ := h4.forget ?_
  · refine ⟨by rw [size_push, hsize3], htop, hg.later htop
      (fun u hu => .inr (.inl (Option.some.inj hu).symm)) (fun _ h => .inl h) fun _ h => h,
      branches_link _ current d.size .fallThrough, hnode, edge_link _ current d.size .fallThrough,
      fun x hle hlt => ?_⟩
    rw [size_push] at hlt
    obtain rfl | rfl | rfl : x = d.size ∨ x = d2.size ∨ x = d3.size := by omega
    · rw [marks, hnode]
      rfl
    · rw [(grown_push d3 _ fun _ => False).marks_eq (by omega), hd3, marks_push_self]
      rfl
    · rw [marks_push_self]
      rfl
  · unfold Scope.enter Scope.add
    constructor <;> grind

section

variable (ho : Opened s d current targets p l d')
  (h : Steps (s.enter current d.size) d' ((s.enter current d.size).move (some d.size) none) d'')
include ho h

/-- After the body control is at the place of the test. -/
theorem Opened.atTest :
    Guided ((s.enter current d.size).move (some d.size) none) d'' (some (d.size + 2)) targets
      p := by
  exact ho.guided.later h (by grind) (fun _ h => h) fun _ h => h

theorem Opened.finish (hg : Guided s d current targets p) (body : Option Tree) :
    Steps
      (((s.enter current d.size).move (some d.size) none).fork (some (d.size + 2)) d''.size none)
      (addTwoWay l (some (d.size + 2)) body none none d'').2 (s.move current (some (d.size + 1)))
      (link (some (d''.size + 2)) (d.size + 1) .fallThrough (link (some (d''.size + 1)) d.size
        .backEdge (addTwoWay l (some (d.size + 2)) body none none d'').2).2).2 := by
  have hg' := ho.atTest h
  have g := (h.evolves ho.guided.inScope).1
  have g' := ((hg'.forks l body none none).evolves hg'.inScope).1
  have hf := forked_addTwoWay d'' l (some (d.size + 2)) body none none
  generalize (addTwoWay l (some (d.size + 2)) body none none d'').2 = d3 at g' hf ⊢
  have hle := g.size_le
  have hsize := ho.size_eq
  have hnode : d3.graph.node? d.size = some (d.loopEntry l) := by
    rw [g'.node_eq _ (by omega), g.node_eq _ (by omega), ho.node_eq]
  have harm : d3.graph.armAt (d''.size + 1) ≠ none := by
    intro hnone
    have hmarks := hf.marks_whenTrue
    rw [marks, show (d3.graph.node? (d''.size + 1)).bind _ = none from hnone] at hmarks
    cases hmarks
  refine Step.steps (.last d.size d''.size (d''.size + 1) (d''.size + 2) (d.size + 1)
    (.inl (.inr rfl)) hnode rfl rfl rfl (.inr (.inl rfl)) (.inr (.inr rfl)) (by omega)
    (by omega) harm
    ((hf.edge_iff _ _).mpr (.inr (.inr ⟨rfl, .inl rfl⟩)))
    ((hf.edge_iff _ _).mpr (.inr (.inr ⟨rfl, .inr rfl⟩))) (.inl (.inr (.inl rfl)))) ?_
  have := hg.inScope.pending_lt
  have := hg.inScope.free_lt
  constructor <;> grind

end

section

variable (hbody : Draws p (addFirst ts (id + 1)))
include hbody

theorem draws_whileLoop (hk : l.kind = .whileLoop) : Draws p (addTree (.node l ts) id) := by
  intro s d current targets hg
  rw [addTree_whileLoop hk]
  have hl := hg.looped l ts[0]?
  have h3 := hbody _ _ _ _ (hl.guided.inLoop (.inl (.inr rfl)) (.inr rfl))
  exact hl.drawn (h3.link hl.guided.inScope (.inr rfl) .backEdge)

theorem draws_forLoop (hk : l.kind = .forLoop) : Draws p (addTree (.node l ts) id) := by
  intro s d current targets hg
  rw [addTree_forLoop hk]
  dsimp only
  have hl := hg.looped l ts[0]?
  generalize (addTwoWay l current ts[0]? none (some d.size) _).2 = d2 at hl ⊢
  obtain ⟨h3, hg3⟩ := hl.guided.point .forStep l.line ⟨nofun, nofun⟩
  rw [← hl.size_eq]
  have h4 := hbody _ _ _ _ (hg3.inLoop (.inl (.inl (.inr rfl))) (.inr rfl))
  have h5 := h3.trans (h4.link hg3.inScope (.inr rfl) .fallThrough)
  exact hl.drawn (h5.trans (hl.guided.leavePoint (.inr rfl) .backEdge))

theorem draws_doLoop (hk : l.kind = .doLoop) : Draws p (addTree (.node l ts) id) := by
  intro s d current targets hg
  rw [addTree_doLoop hk]
  have ho := hg.opened l
  have h5 := hbody _ _ _ _ (ho.guided.inLoop (.inr (.inl rfl)) (.inr (.inr rfl)))
  have h6 := h5.link ho.guided.inScope (.inr (.inr rfl)) .fallThrough
  exact ⟨((ho.steps.trans h6).trans ((ho.atTest h6).forks l ts[0]? none none)).trans
    (ho.finish h6 hg ts[0]?), fun _ hw => .inr (Option.some.inj hw ▸ Nat.le_succ _)⟩

end

/-! ## Switches and labels -/

theorem Guided.switch {ctx : SwitchContext} {labels : List (Nat × Label × Tree)}
    (hg : Guided s d current targets p)
    (hctx : SwitchAdded d.size d.branches.length l labels ctx) :
    let d1 := d.divide (d.stated .decision l (.str (subjectOf l))) current ctx.branches
    Steps s d (s.switch current d.size ctx) (d1.push (d1.point .switchExit l.line)) := by
  intro d1
  obtain ⟨_, _, hbs⟩ := hctx.exists_specs
  have hsize : d1.size = d.size + 1 := size_divide ..
  refine ((hg.divide rfl rfl rfl hbs).tail
    (.point (d1.point .switchExit l.line) rfl rfl rfl ⟨nofun, nofun⟩)).forget ?_
  constructor <;> grind [stated]

/-- The body of a switch may use its branches, and breaks out to its end. -/
theorem Guided.inSwitch {ctx : SwitchContext} (hg : Guided s d current targets p)
    (h : Steps s d (s.switch current d.size ctx) d') (q : Prop) :
    Guided (s.switch current d.size ctx) d' none
      ⟨some (d.size + 1), targets.continueTo, some ctx⟩ q :=
  { hg.later h (c := none) nofun (fun _ h => .inl h) fun _ h => .inl h with
    break_target := fun _ hv => .inr (Option.some.inj hv).symm
    known := fun _ _ hctx _ hb => .inr (Option.some.inj hctx ▸ hb) }

/-- The arm of a default that is not written leads to the end of the switch. -/
theorem Guided.closeSwitch {ctx : SwitchContext} (hg : Guided s d current targets p)
    (h : Steps s d ((s.switch current d.size ctx).move none none) d') (implied : Bool) :
    Steps ((s.switch current d.size ctx).move none none) d' (s.move current (some (d.size + 1)))
      (if implied then (link (some d'.size) (d.size + 1) .fallThrough
        (addArm ctx.default .switchDefault none d').2).2 else d') := by
  have hwithin : (s.move current (some (d.size + 1))).Within
      ((s.switch current d.size ctx).move none none) := by
    constructor <;> grind
  cases implied with
  | false => exact Steps.refl.forget hwithin
  | true =>
    have := (h.evolves hg.inScope).2.1.free_lt
    refine (((Steps.refl (s := (s.switch current d.size ctx).move none none)).tail
      (.arm .switchDefault none (.inr mem_concat_self))).tail (.link (a := some _) .fallThrough
      (fun u hu => .inr (Option.some.inj hu).symm) (.inr rfl))).forget ?_
    constructor <;> grind

theorem mem_of_armOf {ctx : SwitchContext} {b : Branch} (h : armOf ctx l id = some b) :
    b ∈ ctx.branches := by
  unfold armOf at h
  split at h
  · exact Option.some.inj h ▸ mem_concat_self
  · obtain ⟨l1, l2, heq, _⟩ := lookup_eq_some_iff.mp h
    simp [SwitchContext.branches, heq]

theorem Guided.addSwitchLabel (hg : Guided s d current targets p) (hp : p) (l : Label) (id : Nat) :
    Stepped s d current (some d.size, (addSwitchLabel l id current targets.switch d).2) := by
  obtain ⟨text, kind, label, heq⟩ := exists_addSwitchLabel l id current targets.switch d
  rw [heq]
  have h1 := hg.visit (d.stated .label l text) rfl rfl rfl ⟨nofun, nofun⟩
  change Steps s d _ (addLabelNode l text current d) at h1
  have hsize : (addLabelNode l text current d).size = d.size + 1 := by
    rw [addLabelNode, size_link, size_push]
  generalize addLabelNode l text current d = d1 at h1 hsize ⊢
  cases harm : targets.switch.bind (armOf · l id) with
  | none =>
    exact (h1.forget (s.move_within_visit current d.size)).drawn le_rfl
  | some b =>
    obtain ⟨ctx, hctx, hb⟩ := Option.bind_eq_some_iff.mp harm
    have h2 := (h1.tail (.arm kind label (hg.known hp ctx hctx b (mem_of_armOf hb)))).tail
      (.link (a := some d1.size) .fallThrough (fun u hu => .inr (Option.some.inj hu).symm)
        (.inr rfl))
    have := hg.inScope.free_lt
    refine (h2.forget ?_).drawn le_rfl
    constructor <;> grind

section

variable (hbody : Draws (switchLabelsAll ts (id + 1) ≠ []) (addSequence ts (id + 1)))
include hbody

theorem draws_switch (hk : l.kind = .switch) :
    Draws (switchLabels (.node l ts) id ≠ []) (addTree (.node l ts) id) := by
  intro s d current targets hg
  obtain ⟨ctx, hctx, heq⟩ := exists_addTree_switch hk ts id current targets d
  rw [heq]
  have h4 := hg.switch hctx
  have hg4 := hg.inSwitch h4 (switchLabelsAll ts (id + 1) ≠ [])
  have h6 := h4.trans ((hbody _ _ none _ hg4).link hg4.inScope (.inr rfl) .fallThrough)
  exact (h6.trans (hg.closeSwitch h6 ((switchLabelsAll ts (id + 1)).all fun x =>
    x.2.1.kind ≠ .default))).ifEntered (Nat.le_succ _)

theorem draws_caseOrDefault (hk : l.kind = .case ∨ l.kind = .default) :
    Draws (switchLabels (.node l ts) id ≠ []) (addTree (.node l ts) id) := by
  intro s d current targets hg
  have hlabels : switchLabels (.node l ts) id ≠ [] := by
    simp [switchLabels, hk]
  rw [addTree_caseOrDefault hk]
  have h1 := hg.addSwitchLabel hlabels l id
  exact h1.trans hg.inScope (hbody _ _ _ targets (h1.guided (hg.mono fun _ => hlabels)))

theorem draws_label (hk : l.kind = .label) :
    Draws (switchLabels (.node l ts) id ≠ []) (addTree (.node l ts) id) := by
  intro s d current targets hg
  rw [switchLabels_node (by simp [hk])] at hg
  rw [addTree_label hk]
  have h1 := (hg.visit (d.stated .label l (.str (l.name.plain ++ ":"))) rfl rfl rfl
    ⟨nofun, nofun⟩).tail (.label (labelName l) (.inr rfl))
  have h2 := (h1.forget (s.move_within_visit current d.size)).drawn le_rfl
  exact h2.trans hg.inScope (hbody _ _ _ targets (h2.guided hg))

end

/-! ## All statements -/

/-- The first part of a choice has led on, so control is at the other arm. -/
theorem Guided.otherArm (hg : Guided s d current targets p) :
    (s.move current (some (d.size + 2))).Within
      ((s.fork current d.size none).move (some (d.size + 1)) none) := by
  have := hg.inScope.free_lt
  constructor <;> grind

theorem Guided.firstArm (hg : Guided s d current targets p) (l : Label)
    (first other : Option Tree) :
    Guided (s.fork current d.size none) (addTwoWay l current first other none d).2
      (some (d.size + 1)) targets p :=
  hg.later (hg.forks l first other none) (fun _ hu => .inr (.inl (Option.some.inj hu).symm))
    (fun _ h => .inl h) fun _ h => h

theorem Guided.thenPart {draw : Option Nat → JumpTargets → Drawing (Option Nat)} {join : Nat}
    (hg : Guided s d current targets p) (hthen : Draws p draw) (hjoin : s.targets join) (l : Label)
    (first other : Option Tree) :
    Stepped s d current (some (d.size + 2), (leadTo join draw (some (d.size + 1)) targets
      (addTwoWay l current first other none d).2).2) := by
  have hg1 := hg.firstArm l first other
  have h2 := (hthen _ _ _ targets hg1).link hg1.inScope (.inl hjoin) .fallThrough
  exact (((hg.forks l first other none).trans h2).forget hg.otherArm).drawn (by omega)

/-- A chain of choices whose parts all lead to one node. -/
def DrawsChain (labelled : Prop) (join : Nat) (draw : Option Nat → JumpTargets → Drawing Unit) :
    Prop :=
  ∀ (s : Scope) (d : Draft) (current : Option Nat) (targets : JumpTargets),
    Guided s d current targets labelled → s.targets join →
      Stepped s d current (none, (draw current targets d).2)

section

variable {draw : Option Nat → JumpTargets → Drawing (Option Nat)} {join : Nat}

theorem Draws.leadTo (h : Draws p draw) : DrawsChain p join (leadTo join draw) :=
  fun s d current targets hg hjoin =>
    ⟨(h s d current targets hg).link hg.inScope hjoin .fallThrough, nofun⟩

theorem DrawsChain.choice {rest : Option Nat → JumpTargets → Drawing Unit}
    (hrest : DrawsChain q join rest) (h : Draws p draw) (l : Label) (first other : Option Tree) :
    DrawsChain (p ∨ q) join (choice join l first other draw rest) := by
  intro s d current targets hg hjoin
  have h3 := (hg.mono .inl).thenPart h hjoin l first other
  exact h3.trans hg.inScope (hrest _ _ _ targets (h3.guided (hg.mono .inr)) hjoin)

theorem DrawsChain.mono {draw : Option Nat → JumpTargets → Drawing Unit}
    (h : DrawsChain p join draw) (hpq : p → q) : DrawsChain q join draw :=
  fun s d current targets hg => h s d current targets (hg.mono hpq)

end

theorem draws_skip : Draws p skip := fun _ _ _ _ hg => hg.stay

/-- Control has come to a point that was added before. -/
theorem Guided.join_within (hg : Guided s d current targets p) :
    (s.move current (some d.size)).Within ((s.add d.size).move current none) := by
  have := hg.current_lt
  constructor <;> grind

theorem draws_ifElse (hk : l.kind = .ifElse)
    (hchain : ∀ join, DrawsChain (switchLabelsAll ts (id + 1) ≠ []) join
      (addChain join l ts (id + 1))) :
    Draws (switchLabels (.node l ts) id ≠ []) (addTree (.node l ts) id) := by
  intro s d current targets hg
  rw [switchLabels_node (by simp [hk])] at hg
  rw [addTree_ifElse hk]
  obtain ⟨h1, hg1⟩ := hg.point .join l.line ⟨nofun, nofun⟩
  have h2 := hchain d.size _ _ _ targets hg1 (.inr rfl)
  exact ((h1.trans h2.steps).forget hg.join_within).ifEntered le_rfl

mutual

/-- Every statement is drawn step by step. -/
theorem draws_addTree (t : Tree) (id : Nat) : Draws (switchLabels t id ≠ []) (addTree t id) := by
  obtain ⟨l, ts⟩ := t
  have hleaf : addTree (.node l ts) id = addLeaf (.node l ts) →
      Draws (switchLabels (.node l ts) id ≠ []) (addTree (.node l ts) id) :=
    fun heq => heq ▸ draws_addLeaf _
  have hfirst (hk : l.kind ≠ .case ∧ l.kind ≠ .default ∧ l.kind ≠ .switch) :
      Draws (switchLabels (.node l ts) id ≠ []) (addFirst ts (id + 1)) :=
    switchLabels_node hk ▸ draws_addFirst ts (id + 1)
  match hk : l.kind with
  | .compound =>
    intro s d current targets hg
    rw [switchLabels_node (by simp [hk])] at hg
    rw [addTree_compound _ _ _ _ _ _ hk]
    exact draws_addSequence ts (id + 1) s d current targets hg
  | .ifElse => exact draws_ifElse hk (drawsChain_addChain l ts (id + 1))
  | .whileLoop => exact draws_whileLoop (hfirst (by simp [hk])) hk
  | .doLoop => exact draws_doLoop (hfirst (by simp [hk])) hk
  | .forLoop => exact draws_forLoop (hfirst (by simp [hk])) hk
  | .switch => exact draws_switch (draws_addSequence ts (id + 1)) hk
  | .case => exact draws_caseOrDefault (draws_addSequence ts (id + 1)) (.inl hk)
  | .default => exact draws_caseOrDefault (draws_addSequence ts (id + 1)) (.inr hk)
  | .label => exact draws_label (draws_addSequence ts (id + 1)) hk
  | .break | .continue | .return | .goto | .call | .declaration | .expression | .ternary =>
    exact hleaf (by funext; simp only [addTree, hk])
termination_by sizeOf t

theorem draws_addSequence (ts : List Tree) (id : Nat) :
    Draws (switchLabelsAll ts id ≠ []) (addSequence ts id) := by
  intro s d current targets hg
  match ts with
  | [] => exact hg.stay
  | t :: ts =>
    rw [addSequence_cons]
    refine ((draws_addTree t id).andThen (draws_addSequence ts (id + t.size))).mono ?_
      s d current targets hg
    show _ → switchLabels t id ++ switchLabelsAll ts (id + t.size) ≠ []
    rintro (h | h) <;> simp [h]
termination_by sizeOf ts

theorem draws_addFirst (ts : List Tree) (id : Nat) :
    Draws (switchLabelsAll ts id ≠ []) (addFirst ts id) := by
  intro s d current targets hg
  match ts with
  | [] => exact hg.stay
  | t :: ts =>
    refine (draws_addTree t id).mono ?_ s d current targets hg
    show _ → switchLabels t id ++ switchLabelsAll ts (id + t.size) ≠ []
    simp +contextual
termination_by sizeOf ts

theorem drawsChain_addChain (l : Label) (ts : List Tree) (id join : Nat) :
    DrawsChain (switchLabelsAll ts id ≠ []) join (addChain join l ts id) := by
  match ts with
  | [] =>
    rw [addChain_nil]
    exact (draws_skip.leadTo.choice draws_skip l none none).mono or_self_iff.mp
  | [t] =>
    rw [addChain_one, switchLabelsAll, switchLabelsAll, append_nil]
    exact (draws_skip.leadTo.choice (draws_addTree t id) l (some t) none).mono or_self_iff.mp
  | t :: .node l' ts' :: ts =>
    have hlabels : switchLabelsAll (t :: .node l' ts' :: ts) id = switchLabels t id
        ++ (switchLabels (.node l' ts') (id + t.size)
          ++ switchLabelsAll ts (id + t.size + Tree.size (.node l' ts'))) := rfl
    have ht := draws_addTree t id
    by_cases hk : l'.kind = .ifElse
    · rw [addChain_chain hk, hlabels, switchLabels_node (by simp [hk])]
      refine ((drawsChain_addChain l' ts' (id + t.size + 1) join).choice ht l _ _).mono ?_
      rintro (h | h) <;> simp [h]
    · rw [addChain_else hk, hlabels]
      refine ((draws_addTree (.node l' ts') (id + t.size)).leadTo.choice ht l _ _).mono ?_
      rintro (h | h) <;> simp [h]
termination_by sizeOf ts

end

/-- At the start control is at the entry, and only the exit can be reached. -/
def Scope.start : Scope :=
  ⟨fun _ => False, (· = entry), (· = exit), fun _ => False⟩

theorem guided_empty (function : Json) (p : Prop) :
    Guided .start (empty function) (some entry) ⟨none, none, none⟩ p where
  inScope :=
    { two_le := Nat.le_refl 2, sourced := nofun, pending_lt := nofun, free_open := nofun
      free_lt := fun _ hu => hu ▸ Nat.zero_lt_two
      decides_lt := fun _ ⟨_, h, _⟩ => h.elim
      apart := fun _ ⟨_, h, _⟩ => h.elim }
  current_free := fun _ hu => (Option.some.inj hu).symm
  exit_target := rfl
  break_target := nofun
  continue_target := nofun
  known := nofun

end Draft

end Branchwise
