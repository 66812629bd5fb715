import Branchwise.Proofs.Flow.Growth

/-!
# The labels of a switch

The labels of a switch are found by the numbers of their nodes in the body, and its branches are
numbered in the order of its case labels.  `excess` is the number of arms of a branch beyond the one
that it should have: the branches of a switch lower it, and its labels make up for that.
-/

namespace Branchwise

open List FlowGraph

namespace Tree

open Draft

/-- Whether a node of a kind may have the given parts: a conditional statement has at most two and a
loop at most one, and what has no inner statements has only calls, expressions and conditional
expressions in it. -/
def fits (kind : NodeKind) (ts : List Tree) : Bool :=
  match kind with
  | .ifElse => ts.length ≤ 2
  | .whileLoop | .doLoop | .forLoop => ts.length ≤ 1
  | .compound | .switch | .case | .default | .label => true
  | _ => (ts.flatMap walk).all fun n => n.kind ∈ [.call, .expression, .ternary]

def isShaped (t : Tree) : Bool := t.walk.all fun n => fits n.kind n.children

end Tree

namespace Draft

open Branchwise.Tree

/-! ## Labels in a statement -/

mutual

theorem sublist_switchLabels (t : Tree) (id : Nat) :
    ((switchLabels t id).map Prod.fst).Sublist (range' id t.size) := by
  obtain ⟨l, ts⟩ := t
  have hinner := sublist_switchLabelsAll ts (id + 1)
  rw [Tree.size, range'_succ]
  simp only [switchLabels, map_append]
  split <;> split
  exacts [(nil_sublist _).cons_cons id, hinner.cons_cons id, nil_sublist _, hinner.cons id]

theorem sublist_switchLabelsAll (ts : List Tree) (id : Nat) :
    ((switchLabelsAll ts id).map Prod.fst).Sublist (range' id (sizeAll ts)) := by
  match ts with
  | [] => exact nil_sublist _
  | t :: ts =>
    rw [switchLabelsAll, sizeAll, map_append, ← range'_append_1]
    exact (sublist_switchLabels t id).append (sublist_switchLabelsAll ts (id + t.size))

end

mutual

theorem switchLabels_eq_nil (t : Tree) (id : Nat)
    (h : ∀ n ∈ t.walk, n.kind ≠ .case ∧ n.kind ≠ .default) : switchLabels t id = [] := by
  obtain ⟨l, ts⟩ := t
  rw [walk_node] at h
  have hl : l.kind ≠ .case ∧ l.kind ≠ .default := h _ mem_cons_self
  by_cases hk : l.kind = .switch
  · simp [switchLabels, hk]
  · rw [switchLabels_node ⟨hl.1, hl.2, hk⟩]
    exact switchLabelsAll_eq_nil ts (id + 1) fun n hn => h n (mem_cons_of_mem _ hn)

theorem switchLabelsAll_eq_nil (ts : List Tree) (id : Nat)
    (h : ∀ n ∈ ts.flatMap walk, n.kind ≠ .case ∧ n.kind ≠ .default) :
    switchLabelsAll ts id = [] := by
  match ts with
  | [] => rfl
  | t :: ts =>
    show switchLabels t id ++ switchLabelsAll ts (id + t.size) = []
    rw [switchLabels_eq_nil t id fun n hn => h n (mem_append_left _ hn),
      switchLabelsAll_eq_nil ts _ fun n hn => h n (mem_append_right _ hn), append_nil]

end

mutual

theorem map_snd_switchLabels (t : Tree) (id id' : Nat) :
    (switchLabels t id).map Prod.snd = (switchLabels t id').map Prod.snd := by
  obtain ⟨l, ts⟩ := t
  have hinner := map_snd_switchLabelsAll ts (id + 1) (id' + 1)
  simp only [switchLabels, map_append]
  split <;> split <;> simp [hinner]

theorem map_snd_switchLabelsAll (ts : List Tree) (id id' : Nat) :
    (switchLabelsAll ts id).map Prod.snd = (switchLabelsAll ts id').map Prod.snd := by
  match ts with
  | [] => rfl
  | t :: ts =>
    rw [switchLabelsAll, switchLabelsAll, map_append, map_append, map_snd_switchLabels t id id',
      map_snd_switchLabelsAll ts (id + t.size) (id' + t.size)]

end

theorem caseLabels_append (xs ys : List (Nat × Label × Tree)) :
    caseLabels (xs ++ ys) = caseLabels xs ++ caseLabels ys := filter_append xs ys

theorem caseLabels_switchLabels (l : Label) (ts : List Tree) (id : Nat)
    (hk : l.kind = .case ∨ l.kind = .default) :
    caseLabels (switchLabels (.node l ts) id)
      = (if l.kind = .case then [(id, l, Tree.node l ts)] else [])
        ++ caseLabels (switchLabelsAll ts (id + 1)) := by
  have hs : l.kind ≠ .switch := by rcases hk with hk | hk <;> simp [hk]
  simp only [switchLabels, if_neg hs]
  rcases hk with hk | hk <;> simp [caseLabels, hk]

theorem leaf_of_fits {l : Label} {ts : List Tree} (id : Nat)
    (hk : l.kind ≠ .case ∧ l.kind ≠ .default ∧ l.kind.isDecision = decide (l.kind = .ternary))
    (h : (ts.flatMap walk).all fun n => n.kind ∈ [NodeKind.call, .expression, .ternary]) :
    (Tree.node l ts).decisionCount = (Tree.node l ts).ternaryCount ∧
      switchLabels (.node l ts) id = [] := by
  have hall : ∀ n ∈ (Tree.node l ts).walk,
      n.kind ≠ .case ∧ n.kind ≠ .default ∧ n.kind.isDecision = decide (n.kind = .ternary) := by
    rw [walk_node, forall_mem_cons]
    refine ⟨hk, fun n hn => ?_⟩
    have hkind := of_decide_eq_true (all_eq_true.mp h n hn)
    generalize n.kind = kind at hkind
    revert hkind kind
    decide
  refine ⟨congrArg length (filter_congr fun n hn => (hall n hn).2.2), ?_⟩
  exact switchLabels_eq_nil _ id fun n hn => ⟨(hall n hn).1, (hall n hn).2.1⟩

/-- A node has the parts that one of its kind should have, and no two default labels. -/
def Regular (n : Tree) : Prop :=
  fits n.kind n.children ∧ (n.kind = .switch →
    (switchLabelsAll n.children 0).countP (fun x => x.2.1.kind = .default) ≤ 1)

theorem regular_node {l : Label} {ts : List Tree} (h : ∀ n ∈ (Tree.node l ts).walk, Regular n) :
    fits l.kind ts ∧ (l.kind = .switch →
      (switchLabelsAll ts 0).countP (fun x => x.2.1.kind = .default) ≤ 1) ∧
      ∀ n ∈ ts.flatMap walk, Regular n := by
  rw [walk_node, forall_mem_cons] at h
  exact ⟨h.1.1, h.1.2, h.2⟩

theorem regular_parts {l : Label} {ts : List Tree} {k : Nat}
    (h : ∀ n ∈ (Tree.node l ts).walk, Regular n) (hk : fits l.kind ts = decide (ts.length ≤ k)) :
    ts.length ≤ k ∧ ∀ n ∈ ts.flatMap walk, Regular n := by
  obtain ⟨hfits, -, hts⟩ := regular_node h
  rw [hk] at hfits
  exact ⟨of_decide_eq_true hfits, hts⟩

/-! ## Branches of labels -/

def excess (d : Draft) (i : Nat) : ℤ :=
  d.graph.nodes.countP (fun x => x.branch = some i) - if i < d.branches.length then 1 else 0

def armId (switch : Option SwitchContext) (x : Nat × Label × Tree) : Option Nat :=
  (switch.bind (armOf · x.2.1 x.1)).map Branch.id

/-- The branches of the case labels are numbered in order. -/
def CasesAt (switch : SwitchContext) (case : Nat) (labels : List (Nat × Label × Tree)) : Prop :=
  (caseLabels labels).map (armId (some switch))
    = (range' case (caseLabels labels).length).map some

theorem CasesAt.of_append {switch : SwitchContext} {case : Nat} {xs ys : List (Nat × Label × Tree)}
    (h : CasesAt switch case (xs ++ ys)) :
    CasesAt switch case xs ∧ CasesAt switch (case + (caseLabels xs).length) ys := by
  rw [CasesAt, caseLabels_append, map_append, length_append, ← range'_append_1, map_append] at h
  exact append_inj h (by simp)

/-- The number of arms that labels add to a branch. -/
def labelArms (switch : Option SwitchContext) (labels : List (Nat × Label × Tree)) (i : Nat) : ℤ :=
  labels.countP fun x => armId switch x = some i

/-- One arm for each of some branches. -/
def branchArms (bs : List Branch) (i : Nat) : ℤ := (bs.map Branch.id).count i

/-- The arm of a default that is not written. -/
def defaultArm (switch : SwitchContext) (labels : List (Nat × Label × Tree)) : Nat → ℤ :=
  if (labels.all fun x => x.2.1.kind ≠ .default) then branchArms [switch.default] else 0

theorem labelArms_append (switch : Option SwitchContext) (xs ys : List (Nat × Label × Tree)) :
    labelArms switch (xs ++ ys) = labelArms switch xs + labelArms switch ys := by
  funext i
  rw [labelArms, countP_append, Nat.cast_add]
  rfl

theorem labelArms_singleton (switch : Option SwitchContext) (x : Nat × Label × Tree) :
    labelArms switch [x] = (switch.bind (armOf · x.2.1 x.1)).elim 0 fun b => branchArms [b] := by
  funext i
  rw [labelArms, countP_singleton, armId]
  cases switch.bind (armOf · x.2.1 x.1) <;> simp [branchArms, count_singleton]

theorem lookup_of_mem {β : Type} {xs : List (Nat × β)} (hkeys : (xs.map Prod.fst).Nodup)
    {x : Nat × β} (hx : x ∈ xs) : xs.lookup x.1 = some x.2 := by
  obtain ⟨l₁, l₂, rfl⟩ := append_of_mem hx
  rw [map_append, map_cons, nodup_append] at hkeys
  refine lookup_eq_some_iff.mpr ⟨l₁, l₂, rfl, fun y hy => bne_iff_ne.mpr fun heq => ?_⟩
  exact hkeys.2.2 y.1 (mem_map_of_mem hy) x.1 mem_cons_self heq.symm

/-- A switch has one default, which is written or not. -/
theorem countP_default_add_defaultArm {labels : List (Nat × Label × Tree)} (switch : SwitchContext)
    (hone : labels.countP (fun x => x.2.1.kind = .default) ≤ 1) (i : Nat) :
    ((labels.filter fun x => !decide (x.2.1.kind ≠ .default)).countP
      fun x => armId (some switch) x = some i) + defaultArm switch labels i
      = branchArms [switch.default] i := by
  have hlength : (labels.filter fun x => !decide (x.2.1.kind ≠ .default)).length ≤ 1 := by
    simpa [countP_eq_length_filter] using hone
  have hid : ∀ x ∈ labels.filter fun x => !decide (x.2.1.kind ≠ .default),
      armId (some switch) x = some switch.default.id := by
    intro x hx
    have hkind : x.2.1.kind = .default := by simpa using (mem_filter.mp hx).2
    rw [armId, Option.bind_some, armOf, if_pos hkind]
    rfl
  have hall : (labels.all fun x => x.2.1.kind ≠ .default)
      = (labels.filter fun x => !decide (x.2.1.kind ≠ .default)).isEmpty := by
    rw [Bool.eq_iff_iff, List.isEmpty_iff, filter_eq_nil_iff, all_eq_true]
    simp
  rw [defaultArm, hall]
  generalize labels.filter (fun x => !decide (x.2.1.kind ≠ .default)) = defaults at hlength hid
  rcases defaults with _ | ⟨x, _ | ⟨y, defaults⟩⟩
  · simp
  · rw [countP_singleton, hid x mem_cons_self]
    simp [branchArms, count_singleton]
  · simp at hlength

section Switches

variable {decision first : Nat} {l : Label} {labels : List (Nat × Label × Tree)}
  {ctx : SwitchContext} (h : SwitchAdded decision first l labels ctx)
  (hkeys : (labels.map Prod.fst).Pairwise (· < ·))
include h hkeys

theorem SwitchAdded.casesAt : CasesAt ctx first labels := by
  have hnodup : (ctx.cases.map Prod.fst).Nodup := by
    rw [h.keys_eq]
    exact (hkeys.sublist (filter_sublist.map Prod.fst)).imp Nat.ne_of_lt
  calc (caseLabels labels).map (armId (some ctx))
      = ((caseLabels labels).map Prod.fst).map fun k => (ctx.cases.lookup k).map Branch.id := by
        rw [map_map]
        refine map_congr_left fun x hx => ?_
        rw [armId, Option.bind_some, armOf, if_neg (of_decide_eq_true (mem_filter.mp hx).2)]
        rfl
    _ = (ctx.cases.map fun y => y.2.id).map some := by
        rw [← h.keys_eq, map_map, map_map]
        refine map_congr_left fun y hy => ?_
        rw [Function.comp, lookup_of_mem hnodup hy]
        rfl
    _ = (range' first (caseLabels labels).length).map some := by rw [h.ids_eq]

/-- The labels of a switch and the default that is not written are the arms of its branches. -/
theorem SwitchAdded.arms_eq (hone : labels.countP (fun x => x.2.1.kind = .default) ≤ 1) :
    labelArms (some ctx) labels + defaultArm ctx labels = branchArms ctx.branches := by
  funext i
  have hcases : (caseLabels labels).countP (fun x => armId (some ctx) x = some i)
      = ((ctx.cases.map Prod.snd).map Branch.id).count i := by
    have hmap := congrArg (countP (· = some i)) (h.casesAt hkeys)
    rw [← h.ids_eq, countP_map, countP_map] at hmap
    rw [map_map]
    exact hmap.trans (countP_congr fun j _ => by simp)
  have hsplit : labelArms (some ctx) labels i = _ := congrArg Nat.cast
    (countP_eq_countP_filter_add labels (fun x => armId (some ctx) x = some i)
      fun x => x.2.1.kind ≠ .default)
  rw [Pi.add_apply, hsplit, show filter _ labels = caseLabels labels from rfl, hcases, Nat.cast_add,
    add_assoc, countP_default_add_defaultArm ctx hone i, branchArms, branchArms,
    SwitchContext.branches, map_append, count_append, Nat.cast_add]

end Switches

end Draft

end Branchwise
