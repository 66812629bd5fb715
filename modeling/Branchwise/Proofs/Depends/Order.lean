import Branchwise.Proofs.Calls.Recursion
import Branchwise.Proofs.Depends.Wired

/-!
# Dependency order

The components of a graph are listed with dependencies first.  So callees come before their callers,
and what a type or a file depends on comes before it, unless one leads back to the other; what leads
back is a neighbour.  This holds as long as no edge from a known node to an unknown one is added:
its addition fails, but the source keeps it.
-/

namespace Branchwise

open Branchwise.Digraph CallGraph List

/-- For every successor function that reaches finitely many nodes, and every stored graph, the
components are listed so that an arc between two of them leads to an earlier one.  Hence every
linked call graph, such as that of a unit and its parts, lists each function once, the members of a
cycle as neighbours, and a callee that cannot call back before its caller.  Every dependency graph
that is built by adding nodes and edges lists each key once, and the target of an edge before its
source unless the target leads back. -/
theorem dependencies_listed_first {α : Type} [BEq α] [LawfulBEq α] :
    (∀ (succ : α → List α) (nodes : List α), {a | ReachedFrom succ nodes a}.Finite →
      ∃ cs, (∀ fuel, {a | ReachedFrom succ nodes a}.ncard ≤ fuel →
          (ComponentSearch.run succ fuel nodes).components = cs) ∧
        AreComponents succ nodes cs ∧ DependenciesFirst succ cs) ∧
    (∀ g : Digraph α, AreComponents g.succ g.nodes g.components ∧
      DependenciesFirst g.succ g.components) ∧
    (∀ g : CallGraph, g.Arises → g.IsLinked) ∧
    (∀ g : CallGraph, g.IsLinked →
      IsDependencyOrder g.Calls g.order ∧ ∀ k, k ∈ g.order ↔ k ∈ g.nodes.keys) ∧
    ∀ g : DepGraph, g.Built → ∃ ks, g.order = .ok ks ∧ IsDependencyOrder g.DependsOn ks ∧
      ∀ k, k ∈ ks ↔ g.contains k = true := by
  refine ⟨fun succ nodes hfinite => ?_, fun g => ?_, fun g hg => hg.isLinked,
    fun g hg => hg.isDependencyOrder, fun g hg => hg.isWired.exists_order⟩
  · have hknown : ∀ b, ReachedFrom succ nodes b → b ∈ hfinite.toFinset.toList := by
      intro b hb
      simpa using hb
    obtain ⟨cs, hcs, hare⟩ := exists_ordered_components hknown
    refine ⟨cs, fun fuel hfuel => hcs fuel ?_, hare⟩
    rw [Finset.length_toList, ← Set.ncard_eq_toFinset_card _ hfinite]
    exact hfuel
  · have hapart : g.IsApart := fun _ _ _ _ => beq_iff_eq
    exact hapart.components

/-! ### Files that include each other -/

def inclusion (source target : String) : DepEdge :=
  ⟨.str source, .str target, .includes, .str "", .int 1⟩

def addFile (g : DepGraph) (name : String) : DepGraph :=
  g.addNode (.str name) (.str name) (.str "file") (.str "") (.int 0)

def headers : DepGraph :=
  let g := addFile (addFile (addFile (.empty .files) "main.c") "list.h") "node.h"
  let g := (g.addEdge (inclusion "main.c" "list.h")).2
  let g := (g.addEdge (inclusion "list.h" "node.h")).2
  (g.addEdge (inclusion "node.h" "list.h")).2

theorem built_headers : headers.Built := by
  have hfile {g : DepGraph} (hg : g.Built) (name : String) : (addFile g name).Built :=
    hg.node ⟨name, rfl⟩ _ _ _ _
  have hfiles := hfile (hfile (hfile (.empty .files) "main.c") "list.h") "node.h"
  have hmain := hfiles.edge (e := inclusion "main.c" "list.h") (by rfl)
  have hlist := hmain.edge (e := inclusion "list.h" "node.h") (by rfl)
  exact hlist.edge (by rfl)

/-- A ring of three numbers; a graph in which a later root leads into the component of an earlier
one; the sample call graph; and files that include each other. -/
theorem dependencies_listed_first_sample :
    DependenciesFirst (fun n : Nat => [(n + 1) % 3]) [[2, 1, 0]] ∧
    (let g : Digraph Nat := ⟨[1, 0, 3], ⟨[(0, [1, 2]), (1, [2]), (2, [1]), (3, [0, 2])]⟩⟩
     DependenciesFirst g.succ [[2, 1], [0], [3]]) ∧
    IsDependencyOrder CallGraph.parityGraph.Calls [.str "odd", .str "even", .str "main"] ∧
    IsDependencyOrder headers.DependsOn [.str "node.h", .str "list.h", .str "main.c"] := by
  obtain ⟨hsucc, hstored, hlinked, hcalls, hdepends⟩ := dependencies_listed_first (α := Nat)
  refine ⟨?_, ?_, ?_, ?_⟩
  · have hsubset : {a | ReachedFrom (fun n : Nat => [(n + 1) % 3]) [0] a} ⊆ Finset.range 3 := by
      rintro b ⟨a, ha, hab⟩
      refine closed_of_reflTransGen (P := (· ∈ Finset.range 3)) (fun x y _ hxy => ?_) ?_ hab
      · simp only [List.mem_singleton] at hxy
        simp only [Finset.mem_range]
        omega
      · rw [List.mem_singleton.mp ha]
        simp
    have hcard := Set.ncard_le_ncard hsubset (Finset.finite_toSet _)
    rw [Set.ncard_coe_finset, Finset.card_range] at hcard
    obtain ⟨cs, hcs, -, hfirst⟩ := hsucc _ [0] (Set.Finite.subset (Finset.finite_toSet _) hsubset)
    rw [← hcs 3 hcard] at hfirst
    exact hfirst
  · exact (hstored _).2
  · have hbuild : CallGraph.build parity .empty true = .ok parityGraph := by rfl
    exact (hcalls _ (hlinked _ (.build reached_parity hbuild))).1
  · obtain ⟨ks, hks, horder, -⟩ := hdepends _ built_headers
    have heq : headers.order = .ok [.str "node.h", .str "list.h", .str "main.c"] := by rfl
    rwa [Except.ok.inj (heq.symm.trans hks)]

/-! ## Additions that fail -/

theorem DepGraph.addEdge_eq_self_iff {g : DepGraph} {e : DepEdge} {err : Error}
    (h : (g.addEdge e).1 = .error err) :
    ((g.addEdge e).2 = g ↔ g.contains e.source = false) ∧ (g.addEdge e).2.edges = g.edges := by
  unfold addEdge at h ⊢
  split
  · rename_i hsource
    exact ⟨iff_of_true rfl (by simpa using hsource), rfl⟩
  rename_i hsource
  rw [if_neg hsource] at h
  split at h
  · rename_i htarget
    rw [if_pos htarget]
    refine ⟨iff_of_false (fun heq => ?_) (by simpa using hsource), rfl⟩
    have hsame := congrArg (fun g => g.nodes.entries) heq
    have hknown : g.nodes.contains e.source := by simpa [contains] using hsource
    obtain ⟨x, hx, hkey⟩ := any_eq_true.mp hknown
    have hentry := map_inj_left.mp (hsame.trans (map_id _).symm) x hx
    rw [if_pos hkey] at hentry
    have hout := congrArg (fun x => x.2.outEdges.length) hentry
    simp at hout
  · cases h

/-- In a graph that is built by adding nodes and, with success, edges, the edges of each node are
those of the list that leave or reach it, edges join nodes, and no query meets an unknown key.  An
addition that fails leaves the list of edges as it is, but the whole graph exactly if the source is
unknown: otherwise the source keeps an edge to an unknown target. -/
theorem failed_edge_kept_iff_known_source {g : DepGraph} (hg : g.Built) :
    (∀ x ∈ g.nodes.entries, ∀ e, (e ∈ x.2.outEdges ↔ e ∈ g.edges ∧ e.source = x.1) ∧
      (e ∈ x.2.inEdges ↔ e ∈ g.edges ∧ e.target = x.1)) ∧
    (∀ e ∈ g.edges, g.contains e.source = true ∧ g.contains e.target = true) ∧
    (∃ ks, g.order = .ok ks) ∧
    (∀ kinds, (∃ cs, g.cycles kinds = .ok cs) ∧
      ∀ k, g.contains k = true → ∃ ks, g.reachable k kinds = .ok ks) ∧
    ∀ e err, (g.addEdge e).1 = .error err →
      ((g.addEdge e).2 = g ↔ g.contains e.source = false) ∧ (g.addEdge e).2.edges = g.edges := by
  have hwired := hg.isWired
  refine ⟨fun x hx e => ⟨hwired.mem_outEdges x hx e, hwired.mem_inEdges x hx e⟩,
    fun e he => ⟨hwired.contains_iff.mpr (hwired.source_mem e he),
      hwired.contains_iff.mpr (hwired.target_mem e he)⟩, ?_, fun kinds => ⟨?_, fun k hk => ?_⟩,
    fun e err => DepGraph.addEdge_eq_self_iff⟩
  · obtain ⟨ks, hks, -⟩ := hwired.exists_order
    exact ⟨ks, hks⟩
  · unfold DepGraph.cycles
    dsimp only
    rw [hwired.known_discovered]
    exact ⟨_, rfl⟩
  · exact ⟨_, hwired.exists_reachable hk⟩

theorem failed_edge_kept_iff_known_source_headers :
    (∃ ks, headers.reachable (.str "main.c") none = .ok ks) ∧
      (headers.addEdge (inclusion "a.h" "b.h")).2 = headers := by
  obtain ⟨-, -, -, hqueries, hfails⟩ := failed_edge_kept_iff_known_source built_headers
  exact ⟨(hqueries none).2 _ rfl,
    (hfails (inclusion "a.h" "b.h") (.missingNode (.str "a.h")) rfl).1.mpr rfl⟩

/-- An edge that is not added spoils the order of a graph with one node. -/
theorem failed_edge_spoils_order : let g := addFile (.empty .files) "main.c"
    let g' := (g.addEdge (inclusion "main.c" "list.h")).2
    g.Built ∧ (g.addEdge (inclusion "main.c" "list.h")).1 = .error (.missingNode (.str "list.h")) ∧
      g'.edges = g.edges ∧ g.order = .ok [.str "main.c"] ∧
      g'.order = .error (.missingNode (.str "list.h")) :=
  ⟨(DepGraph.Built.empty .files).node ⟨"main.c", rfl⟩ _ _ _ _, rfl, rfl, rfl, rfl⟩

end Branchwise
