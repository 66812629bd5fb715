import Branchwise.Proofs.Domain.Intersection
import Branchwise.Proofs.Graph.Order

/-!
# Cycles and components agree

The search for cycles and the search for components look at a graph independently.  Both know the
nodes that lead to themselves: a component has such nodes exactly if it has several nodes or an arc
from a node to itself, and exactly these components contain a cycle that is found.
-/

namespace Branchwise.Digraph

open List Json

section Components

variable {α : Type} {succ : α → List α} {nodes : List α} {cs : List (List α)} {shown : α → String}
  {cycles : List (List α)}

theorem AreComponents.onCycle_iff (h : AreComponents succ nodes cs) {d : List α} (hd : d ∈ cs)
    {a : α} (ha : a ∈ d) : OnCycle succ a ↔ 1 < d.length ∨ a ∈ succ a := by
  constructor
  · intro hcycle
    obtain ⟨b, harc, hback⟩ := Relation.TransGen.head'_iff.mp hcycle
    by_cases hba : b = a
    · exact .inr (hba ▸ harc)
    · have hb : b ∈ d := (h.mem_iff d hd a ha b).mpr ⟨Reaches.of_mem harc, hback⟩
      refine .inl (Nat.lt_of_not_le fun hle => hba ?_)
      obtain ⟨x, rfl⟩ := length_eq_one_iff.mp (Nat.le_antisymm hle (length_pos_of_mem ha))
      rw [mem_singleton.mp hb, mem_singleton.mp ha]
  · rintro (hlength | harc)
    · -- Another node of the component leads there and back.
      have hnodup : d.Nodup := (nodup_flatten.mp h.nodup).1 d hd
      obtain ⟨b, hb, hne⟩ : ∃ b ∈ d, b ≠ a := by
        by_contra hall
        push Not at hall
        have hsubset : d ⊆ [a] := fun b hb => mem_singleton.mpr (hall b hb)
        exact absurd hlength (Nat.not_lt.mpr (hnodup.subperm hsubset).length_le)
      obtain ⟨hab, hba⟩ := (h.mem_iff d hd a ha b).mp hb
      rcases Relation.reflTransGen_iff_eq_or_transGen.mp hab with heq | hab
      · exact absurd heq hne
      · exact hab.trans_left hba
    · exact Relation.TransGen.single harc

theorem AreCycles.exists_component (h : AreCycles succ nodes shown cycles)
    (hcs : AreComponents succ nodes cs) {c : List α} (hc : c ∈ cycles) : ∃ d ∈ cs, c ⊆ d := by
  obtain ⟨a, ha⟩ := exists_mem_of_ne_nil c (h.isCycle c hc).ne_nil
  obtain ⟨d, hd, had⟩ := mem_flatten.mp ((hcs.mem_flatten_iff a).mpr (h.reached c hc a ha))
  refine ⟨d, hd, fun b hb => (hcs.mem_iff d hd a had b).mpr ?_⟩
  exact ⟨(h.isCycle c hc).reaches ha hb, (h.isCycle c hc).reaches hb ha⟩

theorem AreCycles.exists_cycle (h : AreCycles succ nodes shown cycles)
    (hcs : AreComponents succ nodes cs) {d : List α} (hd : d ∈ cs) {a : α} (ha : a ∈ d)
    (hcycle : OnCycle succ a) : ∃ c ∈ cycles, c ⊆ d := by
  have hreached := (hcs.mem_flatten_iff a).mp (mem_flatten_of_mem hd ha)
  obtain ⟨c, hc, b, hb, hab, hba⟩ := h.complete a hreached hcycle
  refine ⟨c, hc, fun x hx => (hcs.mem_iff d hd a ha x).mpr ?_⟩
  have hbx := (h.isCycle c hc).reaches hb hx
  have hxb := (h.isCycle c hc).reaches hx hb
  exact ⟨hab.trans hbx, hxb.trans hba⟩

theorem AreCycles.eq_nil_iff (h : AreCycles succ nodes shown cycles) :
    cycles = [] ↔ ∀ a, ReachedFrom succ nodes a → ¬OnCycle succ a := by
  constructor
  · rintro rfl a ha hcycle
    obtain ⟨c, hc, -⟩ := h.complete a ha hcycle
    exact absurd hc not_mem_nil
  · intro hnone
    refine eq_nil_iff_forall_not_mem.mpr fun c hc => ?_
    obtain ⟨a, ha⟩ := exists_mem_of_ne_nil c (h.isCycle c hc).ne_nil
    exact hnone a (h.reached c hc a ha) ((h.isCycle c hc).onCycle ha)

end Components

/-! ## Graphs of texts -/

variable {g : Digraph Json}

theorem isApart_of_isText (hg : ∀ a ∈ g.mentioned, a.IsText) : g.IsApart :=
  fun a b ha hb => separates_isText a b (hg a ha) (hg b hb)

theorem plain_injOn_isText {a b : Json} (ha : a.IsText) (hb : b.IsText) (h : a.plain = b.plain) :
    a = b := by
  obtain ⟨s, rfl⟩ := ha
  obtain ⟨t, rfl⟩ := hb
  exact congrArg str h

/-- In every graph of texts the search for cycles ends within the bound of the graph.  It finds
simple cycles, each from its smallest text on, of which no two are rotations of one another.  Each
lies inside one component, and every component with several nodes or an arc from a node to itself
contains one, so there is none exactly if nothing that the nodes reach leads to itself. -/
theorem cycles_agree_with_components (hg : ∀ a ∈ g.mentioned, a.IsText) :
    (∀ fuel, g.bound ≤ fuel →
      (CycleSearch.run Json.plain g fuel).found = g.cycles Json.plain) ∧
    (∀ c ∈ g.cycles Json.plain, IsCycle g.succ c ∧ StartsLeast Json.plain c) ∧
    ((g.cycles Json.plain).Pairwise fun c c' => ¬c ~r c') ∧
    (∀ c ∈ g.cycles Json.plain, ∃ d ∈ g.components, c ⊆ d) ∧
    (∀ d ∈ g.components, (1 < d.length ∨ ∃ a ∈ d, a ∈ g.succ a) →
      ∃ c ∈ g.cycles Json.plain, c ⊆ d) ∧
    (g.cycles Json.plain = [] ↔ ∀ a, ReachedFrom g.succ g.nodes a → ¬OnCycle g.succ a) := by
  have hapart := isApart_of_isText hg
  obtain ⟨hcomponents, -⟩ := hapart.components
  have hshown : ∀ a ∈ g.mentioned, ∀ b ∈ g.mentioned, a.plain = b.plain → a = b :=
    fun a ha b hb => plain_injOn_isText (hg a ha) (hg b hb)
  obtain ⟨hfuel, hcycles⟩ := hapart.cycles hshown
  refine ⟨hfuel, fun c hc => ⟨hcycles.isCycle c hc, hcycles.least c hc⟩, hcycles.not_isRotated,
    fun c hc => hcycles.exists_component hcomponents hc, fun d hd hlarge => ?_, hcycles.eq_nil_iff⟩
  obtain ⟨a, ha, hcycle⟩ : ∃ a ∈ d, OnCycle g.succ a := by
    rcases hlarge with hlength | ⟨a, ha, harc⟩
    · obtain ⟨a, ha⟩ := exists_mem_of_ne_nil d (hcomponents.nonempty d hd)
      exact ⟨a, ha, (hcomponents.onCycle_iff hd ha).mpr (.inl hlength)⟩
    · exact ⟨a, ha, (hcomponents.onCycle_iff hd ha).mpr (.inr harc)⟩
  exact hcycles.exists_cycle hcomponents hd ha hcycle

/-- Two cycles that share an arc, the second entered within the first, and a node with an arc to
itself. -/
theorem cycles_agree_with_components_knot :
    let g : Digraph Json := ⟨[.str "main"], ⟨[(.str "main", [.str "b", .str "own"]),
      (.str "b", [.str "c"]), (.str "c", [.str "a", .str "b"]), (.str "a", [.str "b"]),
      (.str "own", [.str "own"])]⟩⟩
    let cycles : List (List Json) :=
      [[.str "a", .str "b", .str "c"], [.str "b", .str "c"], [.str "own"]]
    let components : List (List Json) :=
      [[.str "a", .str "c", .str "b"], [.str "own"], [.str "main"]]
    (∀ a ∈ g.mentioned, a.IsText) ∧
    (∀ fuel, g.bound ≤ fuel → (CycleSearch.run plain g fuel).found = cycles) ∧
    (∀ c ∈ cycles, IsCycle g.succ c ∧ StartsLeast plain c) ∧
    (cycles.Pairwise fun c c' => ¬c ~r c') ∧ (∀ c ∈ cycles, ∃ d ∈ components, c ⊆ d) ∧
    (∀ d ∈ components, (1 < d.length ∨ ∃ a ∈ d, a ∈ g.succ a) → ∃ c ∈ cycles, c ⊆ d) ∧
    ¬∀ a, ReachedFrom g.succ g.nodes a → ¬OnCycle g.succ a := by
  intro g cycles components
  have htexts : ∀ a ∈ g.mentioned, a.IsText := by
    have hstr : ∀ t ∈ ["main", "b", "own", "c", "a", "b", "b", "own"], (str t).IsText :=
      fun t _ => ⟨t, rfl⟩
    exact forall_mem_map.mpr hstr
  have hcycles : g.cycles plain = cycles := by rfl
  have hcomponents : g.components = components := by rfl
  obtain ⟨hfuel, hsound, hrot, hinside, hlarge, hnone⟩ := cycles_agree_with_components htexts
  rw [hcycles] at hfuel hsound hrot hinside hlarge hnone
  rw [hcomponents] at hinside hlarge
  exact ⟨htexts, hfuel, hsound, hrot, hinside, hlarge, fun h => cons_ne_nil _ _ (hnone.mpr h)⟩

end Branchwise.Digraph
