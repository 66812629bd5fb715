import Branchwise.Proofs.Flow.Faithful

/-!
# Conditional expressions inside each other

The conditional expressions of a statement are drawn one after the other, in the order of the text.
A walk through the statement decides each of them on its own, also one that stands in a part of
another that the walk did not choose.
-/

namespace Branchwise

open FlowGraph Behaviour List

/-- A branch of each of some decisions.  The first two branches have the given number and the
next. -/
def picked : Nat → List Bool → List Nat
  | _, [] => []
  | b, p :: ps => (if p then b else b + 1) :: picked (b + 2) ps

theorem choices_iff (n b : Nat) (bs : List Nat) (e : Completion) :
    choices n b bs e ↔ e = .normal ∧ ∃ ps : List Bool, ps.length = n ∧ bs = picked b ps := by
  induction n generalizing b bs with
  | zero =>
    constructor
    · rintro ⟨rfl, rfl⟩
      exact ⟨rfl, [], rfl, rfl⟩
    · rintro ⟨rfl, ps, hps, rfl⟩
      rw [eq_nil_of_length_eq_zero hps]
      exact ⟨rfl, rfl⟩
  | succ n ih =>
    constructor
    · rintro (⟨⟨_, ⟨_, he⟩, _⟩ | ⟨_, ⟨_, he⟩, _⟩, hne⟩ | ⟨bs1, bs2, hfirst, hrest, rfl⟩)
      · exact absurd he hne
      · exact absurd he hne
      · obtain ⟨rfl, ps, hps, rfl⟩ := (ih _ _).mp hrest
        rcases hfirst with ⟨_, ⟨rfl, -⟩, rfl⟩ | ⟨_, ⟨rfl, -⟩, rfl⟩
        · exact ⟨rfl, true :: ps, congrArg (· + 1) hps, rfl⟩
        · exact ⟨rfl, false :: ps, congrArg (· + 1) hps, rfl⟩
    · rintro ⟨rfl, _ | ⟨p, ps⟩, hps, rfl⟩
      · cases hps
      · have hrest := (ih (b + 2) _).mpr ⟨rfl, ps, Nat.succ.inj hps, rfl⟩
        refine .inr ⟨[if p then b else b + 1], _, ?_, hrest, rfl⟩
        cases p with
        | true => exact .inl ⟨[], ⟨rfl, rfl⟩, rfl⟩
        | false => exact .inr ⟨[], ⟨rfl, rfl⟩, rfl⟩

namespace Tree

/-- Whether a statement has no inner statements and is no jump to a label. -/
def isLeaf (t : Tree) : Bool :=
  t.kind ∈ [.break, .continue, .return, .call, .declaration, .expression, .ternary]

end Tree

namespace Draft

open Branchwise.Tree

variable {t : Tree}

/-! ## Statements wherever they are drawn -/

/-- A graph has the nodes of a draft, and the edges from what was drawn after an earlier one, apart
from those of the node where control goes on. -/
structure Completed (g : FlowGraph) (d d' : Draft) (current current' : Option Nat) : Prop where
  node_eq : ∀ x < d'.size, g.node? x = d'.graph.node? x
  edge_iff : ∀ x, (d.size ≤ x ∧ x < d'.size ∨ current = some x) → current' ≠ some x →
    ∀ v, v ∈ g.successors x ↔ d'.Edge x v

structure Ready (d : Draft) (current : Option Nat) (switch : Option SwitchContext) : Prop where
  current_lt : ∀ u, current = some u → u < d.size
  switch_lt : ∀ ctx, switch = some ctx → ∀ u, ctx.Decides u → u < d.size

/-- Control is at a node that nothing leaves and that is no decision of the surrounding switch. -/
structure Placed (d : Draft) (current : Option Nat) (targets : JumpTargets) : Prop where
  ready : Ready d current targets.switch
  sourced : d.Sourced
  two_le : 2 ≤ d.size
  isOpen : ∀ u, current = some u → d.Open u
  away : ∀ u ctx, current = some u → targets.switch = some ctx → ¬ctx.Decides u

def Traces (draw : Option Nat → JumpTargets → Drawing (Option Nat)) (runs : Nat → Behaviour) :
    Prop :=
  ∀ (u : Nat) (targets : JumpTargets) (d : Draft) (g : FlowGraph), Placed d (some u) targets →
    g.marks exit = [] →
    Completed g d (draw (some u) targets d).2 (some u) (draw (some u) targets d).1 →
    Follows g targets (runs d.branches.length) u (draw (some u) targets d)

/-- The scope in which control is at a node and any other node of a draft may be a decision. -/
def scopeAt (d : Draft) (u : Nat) : Scope where
  pending := fun _ => False
  free := (· = u)
  targets := fun _ => True
  known := fun b => b.decisionNode < d.size ∧ b.decisionNode ≠ u

theorem scopeAt_decides {d : Draft} {u x : Nat} : (scopeAt d u).Decides x ↔ x < d.size ∧ x ≠ u := by
  constructor
  · rintro ⟨b, hb, rfl⟩
    exact hb
  · exact fun hx => ⟨(addBranch x ⟨.ifElse, .null, "", .null, true, none⟩ d).1, hx, rfl⟩

theorem Placed.guided {d : Draft} {u : Nat} {targets : JumpTargets}
    (h : Placed d (some u) targets) : Guided (scopeAt d u) d (some u) targets True where
  inScope :=
    { two_le := h.two_le, sourced := h.sourced, pending_lt := nofun
      free_lt := fun x hx => h.ready.current_lt x (hx ▸ rfl)
      free_open := fun x hx => h.isOpen x (hx ▸ rfl)
      decides_lt := fun _ hx => (scopeAt_decides.mp hx).1
      apart := fun _ hx => (scopeAt_decides.mp hx).2 }
  current_free := fun _ hx => (Option.some.inj hx).symm
  exit_target := trivial
  break_target := fun _ _ => trivial
  continue_target := fun _ _ => trivial
  known := by
    intro _ ctx hctx b hb
    have hdec : ctx.Decides b.decisionNode := by
      rcases mem_append.mp hb with hb | hb
      · obtain ⟨x, hx, rfl⟩ := mem_map.mp hb
        exact .inr ⟨x, hx, rfl⟩
      · exact .inl (mem_singleton.mp hb ▸ rfl)
    exact ⟨h.ready.switch_lt ctx hctx _ hdec, fun heq => h.away u ctx rfl hctx (heq ▸ hdec)⟩

theorem Tracks.traces {draw : Option Nat → JumpTargets → Drawing (Option Nat)}
    {runs : Nat → Behaviour} (h : Tracks draw runs) : Traces draw runs := by
  intro u targets d g hp hexit hc
  refine h _ d u targets g hp.guided hexit ⟨hc.node_eq, fun x hx hnot v => ?_⟩
  refine hc.edge_iff x ?_ (fun hlast => hnot (.inl (.inr hlast))) v
  by_cases hu : x = u
  · exact .inr (hu ▸ rfl)
  · exact .inl ⟨Nat.not_lt.mp fun hlt => hnot (.inr (scopeAt_decides.mpr ⟨hlt, hu⟩)), hx⟩

/-! ## Conditional expressions -/

theorem leaf_of_isLeaf (h : t.isLeaf) (id : Nat) :
    t.kind ≠ .goto ∧ addTree t id = addLeaf t ∧ (tallyOf t id).2.2 = 0 ∧
      checkTree t = (t.collect .ternary).forM fun e => checkGuard e.label := by
  obtain ⟨l, ts⟩ := t
  have hk : l.kind ∈ [NodeKind.break, .continue, .return, .call, .declaration, .expression,
    .ternary] := of_decide_eq_true h
  simp only [mem_cons, not_mem_nil, or_false] at hk
  show l.kind ≠ .goto ∧ _
  rcases hk with hk | hk | hk | hk | hk | hk | hk <;>
    exact ⟨by simp [hk], by funext; simp only [addTree, hk], by simp [tallyOf, hk],
      by simp only [checkTree, hk]⟩

theorem tracks_of_isLeaf (h : t.isLeaf) (id : Nat) : Tracks (addTree t id) fun b =>
    (choices t.ternaryCount b).andThen (ends t.kind.completion) := by
  obtain ⟨hgoto, hadd, -⟩ := leaf_of_isLeaf h id
  rw [hadd]
  exact tracks_addLeaf_choices hgoto

theorem exists_isWalk_iff_picked (h : t.isLeaf) (function : Json) (bs : List Nat) :
    (∃ w, (drawn function t).graph.IsWalk w ∧ (drawn function t).graph.branchesAlong w = bs) ↔
      ∃ ps : List Bool, ps.length = t.ternaryCount ∧ bs = picked 0 ps := by
  obtain ⟨-, -, htally, -⟩ := leaf_of_isLeaf h 0
  rw [exists_isWalk_iff_of_tracks function (tracks_of_isLeaf h 0) htally]
  constructor
  · rintro ⟨e, ⟨hchoices, hne⟩ | ⟨bs1, bs2, hchoices, ⟨rfl, rfl⟩, rfl⟩⟩
    · exact absurd ((choices_iff _ _ _ _).mp hchoices).1 hne
    · rw [append_nil]
      exact ((choices_iff _ _ _ _).mp hchoices).2
  · intro hps
    exact ⟨_, .inr ⟨bs, [], (choices_iff _ _ _ _).mpr ⟨rfl, hps⟩, ⟨rfl, rfl⟩, (append_nil bs).symm⟩⟩

theorem ofBody_of_isLeaf (h : t.isLeaf) (htexts : t.hasTexts) (function : Json) :
    ofBody function t = .ok (drawn function t) := by
  obtain ⟨-, -, htally, hcheck⟩ := leaf_of_isLeaf h 0
  have hguards : checkTree t = .ok () := hcheck.trans (forM_eq_ok fun e he =>
    (check_of_isChecked (all_eq_true.mp htexts e (mem_filter.mp he).1)).1)
  rw [ofBody, hguards]
  show (forM (drawn function t).gotos (fun x => checkName x.2) >>= fun _ =>
    Except.ok (drawn function t)) = _
  rw [(drawn_of_gotos_eq_nil function rfl (gotos_of_tallyOf htally function)).2]
  rfl

/-- Wherever a statement is drawn, the walks through it take one branch of each of its conditional
expressions, in the order of the text and in every combination, also of those that stand inside
others.  So do the walks from the entry to the exit of a function that is the statement. -/
theorem ternaries_decided_apart (h : t.isLeaf = true) (htexts : t.hasTexts = true)
    (function : Json) :
    (∀ id, Traces (addTree t id) fun b =>
      (choices t.ternaryCount b).andThen (ends t.kind.completion)) ∧
    ∃ d, ofBody function t = .ok d ∧ ∀ bs,
      (∃ w, d.graph.IsWalk w ∧ d.graph.branchesAlong w = bs) ↔
        ∃ ps : List Bool, ps.length = t.ternaryCount ∧ bs = picked 0 ps :=
  ⟨fun id => (tracks_of_isLeaf h id).traces, _, ofBody_of_isLeaf h htexts function,
    exists_isWalk_iff_picked h function⟩

/-- An expression in which one conditional expression is the first part of another. -/
def nested : Tree :=
  let bare := fun kind ts =>
    Tree.node ⟨kind, .null, .null, .null, .null, .null, .null, .null, .null⟩ ts
  bare .expression [bare .ternary [bare .ternary []]]

/-- Some walk takes the second branch of the outer expression and a branch of the inner one. -/
theorem ternaries_decided_apart_nested :
    nested.isLeaf = true ∧ nested.hasTexts = true ∧ ∃ d, ofBody .null nested = .ok d ∧
      ∃ w, d.graph.IsWalk w ∧ d.graph.branchesAlong w = [1, 2] := by
  obtain ⟨-, d, hd, hwalks⟩ := ternaries_decided_apart (t := nested) (by decide) (by decide) .null
  exact ⟨by decide, by decide, d, hd, (hwalks [1, 2]).mpr ⟨[false, true], rfl, rfl⟩⟩

/-- The inner expression is decided on a walk that did not choose the part where it stands. -/
theorem inner_decided_unchosen : ∃ d w, ofBody .null nested = .ok d ∧ d.graph.IsWalk w ∧
    ¬∃ e, nested.Decides 0 (d.graph.branchesAlong w) e := by
  obtain ⟨w, hw, hbs⟩ := (exists_isWalk_iff_picked (t := nested) (by decide) .null [1, 2]).mpr
    ⟨[false, true], rfl, rfl⟩
  refine ⟨_, w, ofBody_of_isLeaf (by decide) (by decide) .null, hw, ?_⟩
  rw [hbs]
  simp [nested, Decides, DecidesAll, DecidesOne, andThen, decides, taking, ends]

end Draft

end Branchwise
