import Branchwise.Depends.Types
import Branchwise.Proofs.Data.Outcome
import Branchwise.Proofs.Domain.Intersection
import Branchwise.Proofs.Graph.Order

/-!
# Dependency graphs and their edges

A dependency graph keeps every edge three times: in the list of all edges, with its source and with
its target.  In graphs that are built by adding nodes and, with success, edges the three agree.
-/

namespace Branchwise

open Branchwise.Digraph Json List Table

namespace DepGraph

variable {g : DepGraph}

/-! ## Wired graphs -/

def Links (g : DepGraph) (kinds : Option (List DepKind)) (a b : Json) : Prop :=
  ∃ e ∈ g.edges, follows kinds e.kind ∧ e.source = a ∧ e.target = b

def DependsOn (g : DepGraph) (a b : Json) : Prop := ∃ e ∈ g.edges, e.source = a ∧ e.target = b

/-- The keys are texts, each there once, the edges join keys, and the edges of a node are those that
have it as their source or target. -/
structure IsWired (g : DepGraph) : Prop where
  isText : ∀ k ∈ g.nodes.keys, k.IsText
  apart : g.nodes.keys.Pairwise fun a b => ¬(a == b)
  key_eq : ∀ x ∈ g.nodes.entries, x.2.key = x.1
  mem_outEdges : ∀ x ∈ g.nodes.entries, ∀ e, e ∈ x.2.outEdges ↔ e ∈ g.edges ∧ e.source = x.1
  mem_inEdges : ∀ x ∈ g.nodes.entries, ∀ e, e ∈ x.2.inEdges ↔ e ∈ g.edges ∧ e.target = x.1
  source_mem : ∀ e ∈ g.edges, e.source ∈ g.nodes.keys
  target_mem : ∀ e ∈ g.edges, e.target ∈ g.nodes.keys

namespace IsWired

theorem isolated (hg : g.IsWired) {k : Json} (hk : k ∈ g.nodes.keys) : Table.Isolated k := by
  obtain ⟨s, rfl⟩ := hg.isText k hk
  exact isolated_str s

theorem contains_iff (hg : g.IsWired) {k : Json} : g.contains k ↔ k ∈ g.nodes.keys := by
  unfold DepGraph.contains Table.contains
  rw [any_eq_true]
  constructor
  · rintro ⟨x, hx, hbeq⟩
    have hkey : x.1 ∈ g.nodes.keys := mem_map_of_mem hx
    rwa [((hg.isolated hkey) k).2.mp hbeq]
  · intro hk
    obtain ⟨x, hx, rfl⟩ := mem_map.mp hk
    exact ⟨x, hx, ((hg.isolated hk) _).1.mpr rfl⟩

theorem keys_addNode (g : DepGraph) (key name kind file line : Json) :
    (g.addNode key name kind file line).nodes.keys
      = if g.nodes.contains key then g.nodes.keys else g.nodes.keys ++ [key] :=
  keys_putNew _ _ _

theorem empty (scope : DepScope) : (DepGraph.empty scope).IsWired :=
  ⟨nofun, Pairwise.nil, nofun, nofun, nofun, nofun, nofun⟩

theorem addNode (hg : g.IsWired) {key : Json} (hkey : key.IsText) (name kind file line : Json) :
    (g.addNode key name kind file line).IsWired := by
  have hsub : g.nodes.keys ⊆ (g.addNode key name kind file line).nodes.keys := by
    rw [keys_addNode]
    split
    · exact Subset.refl _
    · exact subset_append_left _ _
  -- A new key is that of no edge.
  have hentry : ∀ x ∈ (g.addNode key name kind file line).nodes.entries, x ∈ g.nodes.entries ∨
      x = (key, ⟨key, name, kind, file, line, [], []⟩) ∧ key ∉ g.nodes.keys := by
    intro x hx
    change x ∈ (g.nodes.putNew _ _).entries at hx
    by_cases hcontains : g.nodes.contains key
    · rw [putNew, if_pos hcontains] at hx
      exact .inl hx
    · exact (mem_entries_putNew hx).imp_right fun h => ⟨h, mt hg.contains_iff.mpr hcontains⟩
  have hlist {ends : DepEdge → Json} {es : DepNode → List DepEdge}
      (hold : ∀ x ∈ g.nodes.entries, ∀ e, e ∈ es x.2 ↔ e ∈ g.edges ∧ ends e = x.1)
      (hnil : es ⟨key, name, kind, file, line, [], []⟩ = []) (hends : ∀ e ∈ g.edges,
        ends e ∈ g.nodes.keys) : ∀ x ∈ (g.addNode key name kind file line).nodes.entries,
        ∀ e, e ∈ es x.2 ↔ e ∈ g.edges ∧ ends e = x.1 := by
    intro x hx e
    rcases hentry x hx with hx | ⟨rfl, hnew⟩
    · exact hold x hx e
    · rw [hnil]
      exact ⟨nofun, fun ⟨he, (heq : ends e = key)⟩ => absurd (heq ▸ hends e he) hnew⟩
  refine ⟨?_, pairwise_keys_putNew hg.apart _ _, fun x hx => ?_,
    hlist hg.mem_outEdges rfl hg.source_mem, hlist hg.mem_inEdges rfl hg.target_mem,
    fun e he => hsub (hg.source_mem e he), fun e he => hsub (hg.target_mem e he)⟩
  · rw [keys_addNode]
    split
    · exact hg.isText
    · exact forall_mem_append.mpr ⟨hg.isText, forall_mem_singleton.mpr hkey⟩
  · rcases hentry x hx with hx | ⟨rfl, -⟩
    · exact hg.key_eq x hx
    · rfl

theorem exists_entry_of_addEdge {e : DepEdge} (h : (g.addEdge e).1 = .ok ()) :
    g.contains e.source ∧ g.contains e.target ∧
    (g.addEdge e).2.edges = g.edges ++ [e] ∧ (g.addEdge e).2.nodes.keys = g.nodes.keys ∧
    ∀ x ∈ (g.addEdge e).2.nodes.entries, ∃ y ∈ g.nodes.entries, x.1 = y.1 ∧ x.2.key = y.2.key ∧
      x.2.outEdges = (if y.1 == e.source then y.2.outEdges ++ [e] else y.2.outEdges) ∧
      x.2.inEdges = if y.1 == e.target then y.2.inEdges ++ [e] else y.2.inEdges := by
  unfold addEdge at h ⊢
  split at h
  · cases h
  rename_i hsource
  split at h
  · cases h
  rename_i htarget
  rw [if_neg hsource, if_neg htarget]
  simp only [Bool.not_eq_true', Bool.not_eq_false] at hsource htarget
  refine ⟨hsource, htarget, rfl, ?_, fun x hx => ?_⟩
  · unfold Table.keys adjust
    rw [map_map, map_map]
    refine map_congr_left fun y _ => ?_
    simp only [Function.comp_apply]
    split <;> split <;> rfl
  · obtain ⟨z, hz, rfl⟩ := mem_map.mp hx
    obtain ⟨y, hy, rfl⟩ := mem_map.mp hz
    refine ⟨y, hy, ?_⟩
    by_cases hs : y.1 == e.source
    · by_cases ht : y.1 == e.target <;> simp [hs, ht]
    · by_cases ht : y.1 == e.target <;> simp [hs, ht]

theorem addEdge (hg : g.IsWired) {e : DepEdge} (h : (g.addEdge e).1 = .ok ()) :
    (g.addEdge e).2.IsWired := by
  obtain ⟨hsource, htarget, hedges, hkeys, hentry⟩ := exists_entry_of_addEdge h
  rw [hg.contains_iff] at hsource htarget
  have hlist {ends : DepEdge → Json} {es : List DepEdge} {k : Json} (hend : ends e ∈ g.nodes.keys)
      (hold : ∀ e', e' ∈ es ↔ e' ∈ g.edges ∧ ends e' = k) (e' : DepEdge) :
      e' ∈ (if k == ends e then es ++ [e] else es) ↔ e' ∈ g.edges ++ [e] ∧ ends e' = k := by
    have hbeq : k == ends e ↔ ends e = k := ((hg.isolated hend) k).1.trans eq_comm
    rw [mem_append, mem_singleton, or_and_right, ← hold]
    split
    · rename_i hk
      rw [mem_append, mem_singleton]
      exact or_congr_right ⟨fun he => ⟨he, he ▸ hbeq.mp hk⟩, And.left⟩
    · rename_i hk
      exact ⟨Or.inl, fun hmem => hmem.resolve_right fun ⟨he, heq⟩ => hk (hbeq.mpr (he ▸ heq))⟩
  refine ⟨hkeys ▸ hg.isText, hkeys ▸ hg.apart, fun x hx => ?_, fun x hx => ?_, fun x hx => ?_,
    ?_, ?_⟩
  · obtain ⟨y, hy, hkey, hnode, -⟩ := hentry x hx
    rw [hnode, hkey, hg.key_eq y hy]
  · obtain ⟨y, hy, hkey, -, hout, -⟩ := hentry x hx
    rw [hout, hedges, hkey]
    exact hlist hsource (hg.mem_outEdges y hy)
  · obtain ⟨y, hy, hkey, -, -, hin⟩ := hentry x hx
    rw [hin, hedges, hkey]
    exact hlist htarget (hg.mem_inEdges y hy)
  · rw [hedges, hkeys]
    exact forall_mem_append.mpr ⟨hg.source_mem, forall_mem_singleton.mpr hsource⟩
  · rw [hedges, hkeys]
    exact forall_mem_append.mpr ⟨hg.target_mem, forall_mem_singleton.mpr htarget⟩

/-! ## The directed graph -/

variable {kinds : Option (List DepKind)}

section

variable (hg : g.IsWired)
include hg

theorem mem_succ_iff {a b : Json} : b ∈ (g.digraph kinds).succ a ↔ g.Links kinds a b := by
  have hlinks {n : DepNode} (hn : (a, n) ∈ g.nodes.entries) :
      b ∈ (n.outEdges.filter fun e => follows kinds e.kind).map DepEdge.target ↔
        g.Links kinds a b := by
    rw [mem_map]
    refine exists_congr fun e => ?_
    rw [mem_filter, hg.mem_outEdges _ hn e]
    tauto
  have hkeys : (g.digraph kinds).next.keys = g.nodes.keys := keys_mapValues _ _
  by_cases ha : a ∈ g.nodes.keys
  · obtain ⟨x, hx, rfl⟩ := mem_map.mp ha
    have hself : x.1 == x.1 := ((hg.isolated ha) x.1).1.mpr rfl
    have hget : (g.digraph kinds).next.get? x.1
        = some ((x.2.outEdges.filter fun e => follows kinds e.kind).map DepEdge.target) := by
      refine get?_of_mem_entries ?_ hself (mem_map_of_mem (f := fun x => (x.1, _)) hx)
      rw [hkeys]
      exact hg.apart
    rw [succ, hget, Option.getD_some, hlinks hx]
  · -- Nothing is stored for what is no key, and it is the source of no edge.
    have hget : (g.digraph kinds).next.get? a = none := by
      cases hget : (g.digraph kinds).next.get? a with
      | none => rfl
      | some bs =>
        obtain ⟨k, hbeq, hk⟩ := exists_mem_of_get? hget
        have hkey : k ∈ g.nodes.keys := hkeys ▸ mem_map_of_mem (f := Prod.fst) hk
        exact absurd (((hg.isolated hkey) a).2.mp hbeq ▸ hkey) ha
    rw [succ, hget]
    refine ⟨nofun, fun ⟨e, he, _, hsource, _⟩ => ?_⟩
    exact absurd (hsource ▸ hg.source_mem e he) ha

theorem target_mem_of_links {a b : Json} (h : g.Links kinds a b) : b ∈ g.nodes.keys := by
  obtain ⟨e, he, -, -, rfl⟩ := h
  exact hg.target_mem e he

theorem mem_keys_of_mem_mentioned : ∀ a ∈ (g.digraph kinds).mentioned, a ∈ g.nodes.keys := by
  refine forall_mem_append.mpr ⟨fun _ ha => ha, fun b hb => ?_⟩
  obtain ⟨bs, hbs, hb⟩ := mem_flatten.mp hb
  obtain ⟨y, hy, rfl⟩ := mem_map.mp hbs
  obtain ⟨x, hx, rfl⟩ := mem_map.mp hy
  obtain ⟨e, he, rfl⟩ := mem_map.mp hb
  exact hg.target_mem e ((hg.mem_outEdges x hx e).mp (mem_filter.mp he).1).1

theorem isApart : (g.digraph kinds).IsApart := fun a b ha hb =>
  separates_isText a b (hg.isText a (hg.mem_keys_of_mem_mentioned a ha))
    (hg.isText b (hg.mem_keys_of_mem_mentioned b hb))

theorem mem_keys_of_mem_discovered :
    ∀ a ∈ (g.digraph kinds).discovered, a ∈ g.nodes.keys := fun a ha =>
  hg.mem_keys_of_mem_mentioned a (hg.isApart.mem_mentioned_of_mem_discovered a ha)

theorem known_of_mem_keys {keys : List Json} (h : ∀ k ∈ keys, k ∈ g.nodes.keys) :
    g.known keys = .ok () := by
  have hfind : keys.find? (fun k => !g.contains k) = none := by
    refine find?_eq_none.mpr fun k hk => ?_
    rw [hg.contains_iff.mpr (h k hk)]
    exact Bool.false_ne_true
  unfold known
  rw [hfind]

theorem known_discovered : g.known (g.digraph kinds).discovered = .ok () :=
  hg.known_of_mem_keys hg.mem_keys_of_mem_discovered

theorem exists_reachable {k : Json} (hk : g.contains k) :
    g.reachable k kinds = .ok ((g.digraph kinds).reachable k) := by
  have hmentioned : ∀ b ∈ (g.digraph kinds).next.values.flatten, b.IsText := fun b hb =>
    hg.isText b (hg.mem_keys_of_mem_mentioned b (mem_append_right _ hb))
  have hkeys : ∀ b ∈ (g.digraph kinds).next.keys, b.IsText := by
    rw [show (g.digraph kinds).next.keys = g.nodes.keys from keys_mapValues _ _]
    exact hg.isText
  unfold reachable
  rw [hg.known_of_mem_keys (forall_mem_singleton.mpr (hg.contains_iff.mp hk)), ok_bind]
  dsimp only
  rw [hg.known_of_mem_keys fun b hb => ?_]
  · rfl
  · obtain ⟨c, -, hcb⟩ := Relation.TransGen.tail'_iff.mp
      ((mem_reachable_iff separates_isText hkeys hmentioned k b).mp hb)
    exact hg.target_mem_of_links (hg.mem_succ_iff.mp hcb)

theorem reachedFrom_iff {k : Json} :
    Digraph.ReachedFrom (g.digraph kinds).succ (g.digraph kinds).nodes k ↔ k ∈ g.nodes.keys := by
  constructor
  · rintro ⟨a, ha, hak⟩
    refine closed_of_reflTransGen (fun x y _ hxy => ?_) ha hak
    exact hg.target_mem_of_links (hg.mem_succ_iff.mp hxy)
  · exact fun hk => ⟨k, hk, .refl⟩

theorem exists_order :
    ∃ ks, g.order = .ok ks ∧ Digraph.IsDependencyOrder g.DependsOn ks ∧
      ∀ k, k ∈ ks ↔ g.contains k := by
  have hdepends (a b : Json) : b ∈ (g.digraph none).succ a ↔ g.DependsOn a b := by
    rw [hg.mem_succ_iff]
    exact exists_congr fun e => and_congr_right fun _ => and_iff_right rfl
  have hnumbers : (g.digraph none).discovered.any isNaN = false := by
    refine any_eq_false.mpr fun k hk => ?_
    obtain ⟨s, rfl⟩ := hg.isText k (hg.mem_keys_of_mem_discovered k hk)
    exact Bool.false_ne_true
  have hapart : (g.digraph none).IsApart := hg.isApart
  obtain ⟨hcomponents, hfirst⟩ := hapart.components
  have hmem (k : Json) : k ∈ (g.digraph none).components.flatten ↔ k ∈ g.nodes.keys :=
    (hcomponents.mem_flatten_iff k).trans hg.reachedFrom_iff
  refine ⟨(g.digraph none).components.flatten, ?_, ?_, fun k => (hmem k).trans hg.contains_iff.symm⟩
  · unfold order
    dsimp only
    rw [hg.known_discovered]
    unfold valueComponents
    rw [hnumbers]
    rfl
  · refine (hcomponents.isDependencyOrder hfirst).congr (fun a _ b => hdepends a b) ?_
    intro a b _ hab
    exact (hmem b).mpr (hg.target_mem_of_links (hg.mem_succ_iff.mp hab))

end

end IsWired

/-! ## Graphs that are built -/

/-- The graphs that come about by adding nodes under texts and, with success, edges. -/
inductive Built : DepGraph → Prop
  | empty (scope : DepScope) : Built (.empty scope)
  | node {g : DepGraph} {key : Json} (hg : Built g) (hkey : key.IsText)
      (name kind file line : Json) : Built (g.addNode key name kind file line)
  | edge {g : DepGraph} {e : DepEdge} (hg : Built g) (h : (g.addEdge e).1 = .ok ()) :
      Built (g.addEdge e).2

theorem Built.isWired (h : g.Built) : g.IsWired := by
  induction h with
  | empty scope => exact .empty scope
  | node _ hkey name kind file line ih => exact ih.addNode hkey name kind file line
  | edge _ h ih => exact ih.addEdge h

end DepGraph

end Branchwise
