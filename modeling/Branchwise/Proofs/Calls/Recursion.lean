import Branchwise.Proofs.Declarations.Typed
import Branchwise.Proofs.Layout.History
import Branchwise.Proofs.Graph.Agreement
import Branchwise.Session.Basic

/-!
# Recursive functions

A function is recursive if calls lead from it back to it.  The mark of a node says so, from the
components, and so does the list of everything that the function calls, from a breadth-first search.
Asking a session for a part changes no record.
-/

namespace Branchwise

open List Relation Entity Session Table

/-! ## Linked call graphs

A call graph keeps its nodes under their names, and its call sites join names of nodes as they are
written there.  So names that count as one never meet, and the directed graph of the calls is the
relation of its call sites.  Every graph that is built is linked, and so is every part of one. -/

theorem separates_of_pairwise {ks : List Json} (hkey : ∀ k ∈ ks, k.isKey = true)
    (h : ks.Pairwise fun a b => ¬(a == b) = true) : Separates (· ∈ ks) := by
  have hmark : ks.Pairwise fun a b => a.mark ≠ b.mark :=
    h.imp_of_mem fun ha hb hne => by rwa [Json.beq_iff_mark (hkey _ ha) (hkey _ hb)] at hne
  intro a b ha hb
  rw [Json.beq_iff_mark (hkey a ha) (hkey b hb)]
  refine ⟨fun heq => ?_, congrArg _⟩
  by_contra hne
  have hsymm : Std.Symm fun a b : Json => a.mark ≠ b.mark := ⟨fun _ _ => Ne.symm⟩
  exact hmark.forall ha hb hne heq

namespace CallGraph

variable {g : CallGraph}

def Calls (g : CallGraph) (a b : Json) : Prop := ∃ e ∈ g.edges, e.caller = a ∧ e.callee = b

/-- The nodes are kept under their names, no two names count as one, and the call sites join names
of nodes. -/
structure IsLinked (g : CallGraph) : Prop where
  name_eq : ∀ x ∈ g.nodes.entries, x.2.name = x.1
  isKey : ∀ k ∈ g.nodes.keys, k.isKey = true
  apart : g.nodes.keys.Pairwise fun a b => ¬(a == b) = true
  caller_mem : ∀ e ∈ g.edges, e.caller ∈ g.nodes.keys
  callee_mem : ∀ e ∈ g.edges, e.callee ∈ g.nodes.keys

namespace IsLinked

variable {a b name : Json}

section

variable (hg : g.IsLinked)
include hg

theorem separates : Separates (· ∈ g.nodes.keys) :=
  separates_of_pairwise hg.isKey hg.apart

/-! ## The directed graph -/

theorem mem_callees_iff (ha : a ∈ g.nodes.keys) : b ∈ g.callees a ↔ g.Calls a b := by
  have hmem : b ∈ (g.outEdges a).map CallSite.callee ↔ g.Calls a b := by
    rw [mem_map]
    refine exists_congr fun e => ?_
    rw [outEdges, mem_filter]
    constructor
    · rintro ⟨⟨he, hbeq⟩, rfl⟩
      exact ⟨he, (hg.separates _ _ (hg.caller_mem e he) ha).mp hbeq, rfl⟩
    · rintro ⟨he, rfl, rfl⟩
      exact ⟨⟨he, (hg.separates _ _ ha ha).mpr rfl⟩, rfl⟩
  have hkeys : ∀ k ∈ (g.outEdges a).map CallSite.callee, k ∈ g.nodes.keys := by
    refine forall_mem_map.mpr fun e he => hg.callee_mem e ?_
    exact (mem_filter.mp he).1
  rw [← hmem]
  -- Of two callees that count as one only the first is kept, but these are the same.
  refine ⟨Table.mem_of_mem_eraseDups, fun hb => mem_eraseDups (fun k hk hbeq => ?_) hb⟩
  exact ((hg.separates _ _ (hkeys b hb) (hkeys k hk)).mp hbeq).symm

theorem mem_succ_iff (ha : a ∈ g.nodes.keys) : b ∈ g.digraph.succ a ↔ g.Calls a b := by
  have hget := get?_map_of_separates hg.separates (fun _ hk => hk) g.callees ha
  have hsucc : g.digraph.succ a = g.callees a := congrArg (Option.getD · []) hget
  rw [hsucc, hg.mem_callees_iff ha]

theorem callee_mem_of_calls (h : g.Calls a b) : b ∈ g.nodes.keys := by
  obtain ⟨e, he, -, rfl⟩ := h
  exact hg.callee_mem e he

theorem mem_keys_of_mem_values (hb : b ∈ g.digraph.next.values.flatten) : b ∈ g.nodes.keys := by
  obtain ⟨bs, hbs, hb⟩ := mem_flatten.mp hb
  obtain ⟨x, hx, rfl⟩ := mem_map.mp hbs
  obtain ⟨k, hk, rfl⟩ := mem_map.mp hx
  exact hg.callee_mem_of_calls ((hg.mem_callees_iff hk).mp hb)

theorem isApart : g.digraph.IsApart := by
  have hmem : ∀ a ∈ g.digraph.mentioned, a ∈ g.nodes.keys :=
    forall_mem_append.mpr ⟨fun _ ha => ha, fun _ hb => hg.mem_keys_of_mem_values hb⟩
  exact fun a b ha hb => hg.separates a b (hmem a ha) (hmem b hb)

theorem reachedFrom_iff {k : Json} :
    Digraph.ReachedFrom g.digraph.succ g.digraph.nodes k ↔ k ∈ g.nodes.keys := by
  constructor
  · rintro ⟨a, ha, hak⟩
    refine Digraph.closed_of_reflTransGen (fun x y hx hxy => ?_) ha hak
    exact hg.callee_mem_of_calls ((hg.mem_succ_iff hx).mp hxy)
  · exact fun hk => ⟨k, hk, .refl⟩

theorem isDependencyOrder :
    Digraph.IsDependencyOrder g.Calls g.order ∧ ∀ k, k ∈ g.order ↔ k ∈ g.nodes.keys := by
  obtain ⟨hcomponents, hfirst⟩ := hg.isApart.components
  have hmem : ∀ k, k ∈ g.order ↔ k ∈ g.nodes.keys :=
    fun k => (hcomponents.mem_flatten_iff k).trans hg.reachedFrom_iff
  refine ⟨(hcomponents.isDependencyOrder hfirst).congr (fun a ha b => ?_)
    fun a b ha hab => ?_, hmem⟩
  · exact hg.mem_succ_iff ((hmem a).mp ha)
  · have hcalls := (hg.mem_succ_iff ((hmem a).mp ha)).mp hab
    exact (hmem b).mpr (hg.callee_mem_of_calls hcalls)

end

/-! ## Building -/

theorem empty : CallGraph.empty.IsLinked := ⟨nofun, nofun, Pairwise.nil, nofun, nofun⟩

theorem subset_keys_addNode (g : CallGraph) (name : Json) (isExternal : Bool) (record : Identity) :
    g.nodes.keys ⊆ (g.addNode name isExternal record).nodes.keys := by
  unfold CallGraph.addNode
  rw [keys_putNew]
  split
  · exact Subset.refl _
  · exact subset_append_left _ _

section

variable (hg : g.IsLinked)
include hg

theorem addNode (hname : name.isKey = true) (isExternal : Bool) (record : Identity) :
    (g.addNode name isExternal record).IsLinked := by
  have hsub := subset_keys_addNode g name isExternal record
  refine ⟨fun x hx => ?_, fun k hk => ?_, pairwise_keys_putNew hg.apart _ _,
    fun e he => hsub (hg.caller_mem e he), fun e he => hsub (hg.callee_mem e he)⟩
  · rcases mem_entries_putNew hx with hx | rfl
    · exact hg.name_eq x hx
    · rfl
  · change k ∈ (g.nodes.putNew _ _).keys at hk
    rw [keys_putNew] at hk
    split at hk
    · exact hg.isKey k hk
    · rcases mem_append.mp hk with hk | hk
      · exact hg.isKey k hk
      · exact mem_singleton.mp hk ▸ hname

theorem addEdge {e : CallSite} (hcaller : e.caller ∈ g.nodes.keys)
    (hcallee : e.callee ∈ g.nodes.keys) : (g.addEdge e).IsLinked := by
  unfold CallGraph.addEdge
  split
  · exact hg
  · refine ⟨hg.name_eq, hg.isKey, hg.apart, ?_, ?_⟩
    · exact forall_mem_append.mpr ⟨hg.caller_mem, forall_mem_singleton.mpr hcaller⟩
    · exact forall_mem_append.mpr ⟨hg.callee_mem, forall_mem_singleton.mpr hcallee⟩

theorem addExternal (d : Declarations) (includeExternal : Bool) (hname : name.isKey = true) :
    (CallGraph.addExternal d includeExternal g name).IsLinked := by
  unfold CallGraph.addExternal
  split
  · exact hg
  · split
    · exact hg.addNode hname true _
    · exact hg

theorem mem_keys_of_nodeName? {k : Json} (h : g.nodeName? name = some k) : k ∈ g.nodes.keys := by
  obtain ⟨n, hn, rfl⟩ := Option.map_eq_some_iff.mp h
  obtain ⟨k, -, hmem⟩ := exists_mem_of_get? hn
  rw [hg.name_eq _ hmem]
  exact mem_map_of_mem hmem

theorem link (d : Declarations) (includeExternal : Bool) {s : CallSite}
    (hs : s.callee.isKey = true) : (CallGraph.link d includeExternal g s).IsLinked := by
  have hext := hg.addExternal d includeExternal hs
  unfold CallGraph.link
  dsimp only
  split
  · rename_i hcaller hcallee
    exact hext.addEdge (hext.mem_keys_of_nodeName? hcaller) (hext.mem_keys_of_nodeName? hcallee)
  · exact ⟨hext.name_eq, hext.isKey, hext.apart, hext.caller_mem, hext.callee_mem⟩

end

theorem keys_markRecursive (g : CallGraph) : g.markRecursive.nodes.keys = g.nodes.keys :=
  keys_mapValues _ _

theorem markRecursive (hg : g.IsLinked) : g.markRecursive.IsLinked := by
  refine ⟨fun x hx => ?_, ?_, ?_, ?_, ?_⟩
  · obtain ⟨y, hy, rfl⟩ := mem_map.mp hx
    exact hg.name_eq y hy
  all_goals rw [keys_markRecursive]
  · exact hg.isKey
  · exact hg.apart
  · exact hg.caller_mem
  · exact hg.callee_mem

end IsLinked

theorem exists_linked_of_build {d : Declarations} (hd : d.Reached) {bodies : Table Json Tree}
    {includeExternal : Bool} (h : build d bodies includeExternal = .ok g) :
    ∃ g0 : CallGraph, g0.IsLinked ∧ g = g0.markRecursive := by
  unfold build at h
  dsimp only at h
  split at h
  · cases h
  rename_i hlinkable
  split at h
  · cases h
  simp only [Bool.not_eq_true, Bool.not_eq_false', all_eq_true] at hlinkable
  refine ⟨_, ?_, (Except.ok.inj h).symm⟩
  -- First the defined functions become nodes, then the call sites are linked one by one.
  have hdefined : (d.definedFunctions.foldl (fun (g : CallGraph) f =>
      g.addNode f.name false (Entity.function f).identity) .empty).IsLinked := by
    refine foldlRecOn d.definedFunctions _ IsLinked.empty fun g hg f hf => ?_
    have hmem := Declarations.mem_of_mem_functions (mem_filter.mp hf).1
    have hkey := hd.kept.isKey_of_mem hmem
    simp only [Identity.isKey, Bool.and_eq_true] at hkey
    exact hg.addNode hkey.1.1 false _
  refine foldlRecOn (allSites d bodies) _ hdefined fun g hg s hs => ?_
  have hcallee := hlinkable s hs
  rw [isLinkable, Bool.and_eq_true] at hcallee
  exact hg.link d includeExternal hcallee.1

/-! ## Parts -/

section Parts

variable {limit : Scalar}

structure AreNames (g : CallGraph) (t : Table Json Nat) : Prop where
  mem : ∀ k ∈ t.keys, k ∈ g.nodes.keys
  apart : t.keys.Pairwise fun a b => ¬(a == b) = true

theorem AreNames.put {t : Table Json Nat} (ht : g.AreNames t) {k : Json} (hk : k ∈ g.nodes.keys)
    (n : Nat) : g.AreNames (t.put k n) := by
  refine ⟨fun k' hk' => ?_, pairwise_keys_put ht.apart k n⟩
  rw [keys_put] at hk'
  split at hk'
  · exact ht.mem k' hk'
  · rcases mem_append.mp hk' with hk' | hk'
    · exact ht.mem k' hk'
    · exact mem_singleton.mp hk' ▸ hk

theorem IsLinked.callees_subset (hg : g.IsLinked) (name : Json) :
    g.callees name ⊆ g.nodes.keys := by
  intro b hb
  obtain ⟨e, he, rfl⟩ := mem_map.mp (mem_of_mem_eraseDups hb)
  exact hg.callee_mem e (mem_filter.mp he).1

theorem IsLinked.areNames_depthLoop (hg : g.IsLinked) (fuel : Nat) (queue : List Json)
    {t : Table Json Nat} (ht : g.AreNames t) : g.AreNames (g.depthLoop limit fuel queue t) := by
  induction fuel generalizing queue t with
  | zero => exact ht
  | succ fuel ih =>
    cases queue with
    | nil => exact ht
    | cons name queue =>
      refine ih _ (foldlRecOn _ _ ht fun t' ht' c hc => ht'.put ?_ _)
      split at hc
      · exact absurd hc not_mem_nil
      · exact hg.callees_subset name (mem_filter.mp hc).1

theorem IsLinked.areNames_depths (hg : g.IsLinked) {root : Json} (hroot : root ∈ g.nodes.keys) :
    g.AreNames (g.depths root limit) := by
  refine hg.areNames_depthLoop _ _ ?_
  have hempty : g.AreNames .empty := ⟨nofun, Pairwise.nil⟩
  exact hempty.put hroot 0

theorem IsLinked.name_mem_of_node (hg : g.IsLinked) {name : Json} {n : CallNode}
    (h : g.node name = .ok n) : n.name ∈ g.nodes.keys := by
  have hname : g.nodeName? name = some n.name := by
    unfold node at h
    unfold nodeName?
    cases hget : g.nodes.get? name with
    | none =>
      rw [hget] at h
      cases h
    | some m =>
      rw [hget] at h
      exact congrArg _ (congrArg _ (Except.ok.inj h))
  exact hg.mem_keys_of_nodeName? hname

def part (g : CallGraph) (root : Json) (limit : Scalar) (depths : Table Json Nat) : CallGraph where
  nodes := ⟨depths.entries.filterMap fun (name, d) =>
    (g.nodes.get? name).map fun n => (name, { n with depth := some d })⟩
  edges := depths.entries.flatMap fun (name, d) =>
    if atLimit limit d then [] else (g.outEdges name).filter fun e => depths.contains e.callee
  unresolved := g.unresolved.filter fun u => depths.contains u.caller
  root := some root

theorem exists_part_of_subgraph {root limit : Json} {sub : CallGraph}
    (h : g.subgraph root limit = .ok sub) :
    ∃ start l, g.node root = .ok start ∧
      sub = (g.part root l (g.depths start.name l)).markRecursive := by
  obtain ⟨start, hstart, h⟩ := bind_eq_ok h
  obtain ⟨l, -, h⟩ := bind_eq_ok h
  exact ⟨start, l, hstart, (Except.ok.inj h).symm⟩

section Part

variable {root : Json} {depths : Table Json Nat}

theorem IsLinked.mem_entries_part (hg : g.IsLinked) (hnames : g.AreNames depths)
    {x : Json × CallNode} (hx : x ∈ (g.part root limit depths).nodes.entries) :
    x.1 ∈ depths.keys ∧ x.2.name = x.1 := by
  obtain ⟨⟨name, d⟩, hmem, hx⟩ := mem_filterMap.mp hx
  obtain ⟨n, hn, rfl⟩ := Option.map_eq_some_iff.mp hx
  have hname : name ∈ depths.keys := mem_map_of_mem (f := Prod.fst) hmem
  obtain ⟨k, hbeq, hk⟩ := exists_mem_of_get? hn
  have hkey : k ∈ g.nodes.keys := mem_map_of_mem (f := Prod.fst) hk
  have hn : n.name = k := hg.name_eq _ hk
  exact ⟨hname, hn.trans ((hg.separates k name hkey (hnames.mem name hname)).mp hbeq)⟩

theorem IsLinked.keys_part (hg : g.IsLinked) (hnames : g.AreNames depths) :
    (g.part root limit depths).nodes.keys = depths.keys := by
  unfold part Table.keys
  rw [map_filterMap, ← filterMap_eq_map]
  -- Each of the names is found, so none is left out.
  refine filterMap_congr fun x hx => ?_
  have hmem := hnames.mem x.1 (mem_map_of_mem hx)
  obtain ⟨y, hy, heq⟩ := mem_map.mp hmem
  have hget := get?_of_mem_entries hg.apart (a := y.1) (v := y.2)
    ((hg.separates _ _ (heq ▸ hmem) (heq ▸ hmem)).mpr rfl) hy
  rw [heq] at hget
  simp only [hget, Option.map_some, Function.comp_apply]

theorem IsLinked.part (hg : g.IsLinked) (hnames : g.AreNames depths) :
    (g.part root limit depths).IsLinked := by
  have hedge : ∀ e ∈ (g.part root limit depths).edges,
      e.caller ∈ depths.keys ∧ e.callee ∈ depths.keys := by
    intro e he
    obtain ⟨⟨name, d⟩, hmem, he⟩ := mem_flatMap.mp he
    have hname : name ∈ depths.keys := mem_map_of_mem (f := Prod.fst) hmem
    dsimp only at he
    split at he
    · exact absurd he not_mem_nil
    obtain ⟨he, hcontains⟩ := mem_filter.mp he
    obtain ⟨he, hbeq⟩ := mem_filter.mp he
    obtain ⟨x, hx, hcallee⟩ := any_eq_true.mp hcontains
    have hx : x.1 ∈ depths.keys := mem_map_of_mem hx
    constructor
    · rw [(hg.separates _ _ (hg.caller_mem e he) (hnames.mem name hname)).mp hbeq]
      exact hname
    · rw [← (hg.separates _ _ (hnames.mem _ hx) (hg.callee_mem e he)).mp hcallee]
      exact hx
  refine ⟨fun x hx => (hg.mem_entries_part hnames hx).2, ?_, ?_, ?_, ?_⟩
  all_goals rw [hg.keys_part hnames]
  · exact fun k hk => hg.isKey k (hnames.mem k hk)
  · exact hnames.apart
  · exact fun e he => (hedge e he).1
  · exact fun e he => (hedge e he).2

end Part

theorem IsLinked.exists_linked_of_subgraph (hg : g.IsLinked) {root limit : Json} {sub : CallGraph}
    (h : g.subgraph root limit = .ok sub) :
    ∃ g0 : CallGraph, g0.IsLinked ∧ sub = g0.markRecursive := by
  obtain ⟨start, l, hstart, rfl⟩ := exists_part_of_subgraph h
  have hnames : g.AreNames (g.depths start.name l) :=
    hg.areNames_depths (hg.name_mem_of_node hstart)
  exact ⟨_, hg.part hnames, rfl⟩

end Parts

inductive Arises : CallGraph → Prop
  | build {d : Declarations} {bodies : Table Json Tree} {includeExternal : Bool} {g : CallGraph}
      (hd : d.Reached) (h : build d bodies includeExternal = .ok g) : Arises g
  | part {g sub : CallGraph} {root limit : Json} (hg : Arises g)
      (h : g.subgraph root limit = .ok sub) : Arises sub

theorem Arises.isLinked (h : g.Arises) : g.IsLinked := by
  induction h with
  | build hd h =>
    obtain ⟨g0, hg, rfl⟩ := exists_linked_of_build hd h
    exact hg.markRecursive
  | part _ h ih =>
    obtain ⟨g0, hg, rfl⟩ := ih.exists_linked_of_subgraph h
    exact hg.markRecursive

end CallGraph

/-! ## Recursion -/

structure CallSite.IsComparable (s : CallSite) : Prop where
  callee : s.callee.IsText
  file : s.file.isKey
  line : s.line.isKey

namespace CallGraph

variable {g : CallGraph}

/-- The marks of the nodes and the lists of what they call say which functions lie on a cycle of
calls. -/
def MarksCycles (g : CallGraph) : Prop :=
  ∀ n ∈ g.nodes.values, (n.isRecursive ↔ TransGen g.Calls n.name n.name) ∧
    ∃ ks, g.transitiveCallees n.name = .ok ks ∧ (n.isRecursive ↔ n.name ∈ ks) ∧
      ∀ b, b ∈ ks ↔ TransGen g.Calls n.name b

namespace IsLinked

section

variable (hg : g.IsLinked)
include hg

theorem transGen_iff {a b : Json} (ha : a ∈ g.nodes.keys) :
    TransGen (fun a b => b ∈ g.digraph.succ a) a b ↔ TransGen g.Calls a b := by
  rw [TransGen.head'_iff, TransGen.head'_iff]
  refine exists_congr fun c => ?_
  rw [hg.mem_succ_iff ha]
  refine and_congr_right fun hac => ?_
  -- Both relations are the same on the nodes, and calls never leave these.
  refine Digraph.reflTransGen_iff_of_closed (P := (· ∈ g.nodes.keys)) (fun x hx y => ?_)
    (fun x y hx hxy => ?_) (hg.callee_mem_of_calls hac)
  · exact hg.mem_succ_iff hx
  · exact hg.callee_mem_of_calls ((hg.mem_succ_iff hx).mp hxy)

theorem callsItself_iff {a : Json} (ha : a ∈ g.nodes.keys) : g.callsItself a ↔ g.Calls a a := by
  rw [callsItself, any_eq_true]
  refine exists_congr fun e => ?_
  rw [outEdges, mem_filter]
  constructor
  · rintro ⟨⟨he, hcaller⟩, hcallee⟩
    exact ⟨he, (hg.separates _ _ (hg.caller_mem e he) ha).mp hcaller,
      (hg.separates _ _ (hg.callee_mem e he) ha).mp hcallee⟩
  · rintro ⟨he, hcaller, hcallee⟩
    have hself : a == a := (hg.separates a a ha ha).mpr rfl
    exact ⟨⟨he, by rw [hcaller, hself]⟩, by rw [hcallee, hself]⟩

theorem mem_cyclic_or_callsItself_iff {a : Json} (ha : a ∈ g.nodes.keys) :
    (((g.components.filter fun c => 1 < c.length).flatten.contains a || g.callsItself a)) ↔
      TransGen g.Calls a a := by
  obtain ⟨hcomponents, -⟩ := hg.isApart.components
  have hcycle {c : List Json} (hc : c ∈ g.components) (hac : a ∈ c) :
      TransGen g.Calls a a ↔ 1 < c.length ∨ g.Calls a a := by
    rw [← hg.transGen_iff ha, ← hg.mem_succ_iff ha]
    exact hcomponents.onCycle_iff hc hac
  have hkeys : ∀ b ∈ (g.components.filter fun c => 1 < c.length).flatten, b ∈ g.nodes.keys := by
    intro b hb
    obtain ⟨c, hc, hbc⟩ := mem_flatten.mp hb
    have hb' : b ∈ g.components.flatten := mem_flatten_of_mem (mem_filter.mp hc).1 hbc
    exact hg.reachedFrom_iff.mp ((hcomponents.mem_flatten_iff b).mp hb')
  rw [Bool.or_eq_true, contains_iff_of_separates hg.separates hkeys ha, hg.callsItself_iff ha]
  constructor
  · rintro (hmem | hself)
    · obtain ⟨c, hc, hac⟩ := mem_flatten.mp hmem
      obtain ⟨hc, hlength⟩ := mem_filter.mp hc
      exact (hcycle hc hac).mpr (.inl (of_decide_eq_true hlength))
    · exact .single hself
  · intro h
    have hreached := (hcomponents.mem_flatten_iff a).mpr (hg.reachedFrom_iff.mpr ha)
    obtain ⟨c, hc, hac⟩ := mem_flatten.mp hreached
    refine ((hcycle hc hac).mp h).imp_left fun hlength => ?_
    exact mem_flatten_of_mem (mem_filter.mpr ⟨hc, decide_eq_true hlength⟩) hac

theorem exists_node {k : Json} (hk : k ∈ g.nodes.keys) : ∃ n, g.node k = .ok n := by
  obtain ⟨x, hx, rfl⟩ := mem_map.mp hk
  have hself := (hg.separates x.1 x.1 hk hk).mpr rfl
  refine ⟨x.2, ?_⟩
  unfold node
  rw [get?_of_mem_entries hg.apart hself hx]

theorem exists_transitiveCallees {k : Json} (hk : k ∈ g.nodes.keys) :
    ∃ ks, g.transitiveCallees k = .ok ks ∧ ∀ b, b ∈ ks ↔ TransGen g.Calls k b := by
  obtain ⟨n, hn⟩ := hg.exists_node hk
  refine ⟨g.digraph.reachable k, ?_, fun b => ?_⟩
  · unfold transitiveCallees
    rw [hn]
    rfl
  · have hkeys : ∀ x ∈ g.digraph.next.keys, x ∈ g.nodes.keys := by
      intro x hx
      obtain ⟨y, hy, rfl⟩ := mem_map.mp hx
      obtain ⟨z, hz, rfl⟩ := mem_map.mp hy
      exact hz
    have hsucc : ∀ x ∈ g.digraph.next.values.flatten, x ∈ g.nodes.keys :=
      fun x hx => hg.mem_keys_of_mem_values hx
    rw [Digraph.mem_reachable_iff hg.separates hkeys hsucc, hg.transGen_iff hk]

theorem marksCycles : g.markRecursive.MarksCycles := by
  intro n hn
  obtain ⟨x, hx, rfl⟩ := mem_map.mp hn
  obtain ⟨y, hy, rfl⟩ := mem_map.mp hx
  have hname : y.2.name ∈ g.nodes.keys := by
    rw [hg.name_eq y hy]
    exact mem_map_of_mem hy
  have hmarked := hg.mem_cyclic_or_callsItself_iff hname
  obtain ⟨ks, hks, hmem⟩ :=
    hg.markRecursive.exists_transitiveCallees (keys_markRecursive g ▸ hname)
  exact ⟨hmarked, ks, hks, hmarked.trans (hmem y.2.name).symm, hmem⟩

theorem exists_subgraph {root : Json} (hroot : root ∈ g.nodes.keys) (n : Int) :
    ∃ sub, g.subgraph root (.int n) = .ok sub := by
  obtain ⟨start, hstart⟩ := hg.exists_node hroot
  unfold subgraph
  rw [hstart]
  exact ⟨_, rfl⟩

end

end IsLinked

/-! ## Units that can be linked -/

/-- The functions of a unit have texts as names and call texts, at places that can be compared. -/
structure HasTextCalls (d : Declarations) (bodies : Table Json Tree) : Prop where
  name : ∀ f ∈ d.definedFunctions, f.name.IsText
  calls : ∀ f ∈ d.definedFunctions, ∀ c ∈ f.calls, c.IsText
  callee : ∀ t ∈ bodies.values, ∀ n ∈ t.walk, ∀ c, n.callee? = some c →
    c.IsText ∧ n.label.file.isKey ∧ n.label.line.isKey

variable {d : Declarations} {bodies : Table Json Tree}

theorem HasTextCalls.sitesOf (h : HasTextCalls d bodies) {f : FunctionDecl}
    (hf : f ∈ d.definedFunctions) (hfile : f.file.isKey) :
    ∀ s ∈ sitesOf bodies f, s.IsComparable := by
  intro s hs
  unfold CallGraph.sitesOf at hs
  split at hs
  · rename_i body hbody
    obtain ⟨n, hn, hs⟩ := mem_filterMap.mp hs
    obtain ⟨c, hc, rfl⟩ := Option.map_eq_some_iff.mp hs
    obtain ⟨hcallee, hplace, hline⟩ := h.callee body (mem_values_of_get? hbody) n hn c hc
    refine ⟨hcallee, ?_, hline⟩
    unfold Json.orElse
    split
    · exact hfile
    · exact hplace
  · obtain ⟨c, hc, rfl⟩ := mem_map.mp hs
    exact ⟨h.calls f hf c hc, hfile, rfl⟩

theorem HasTextCalls.allSites (h : HasTextCalls d bodies) (hd : d.Reached) :
    ∀ s ∈ allSites d bodies, s.IsComparable := by
  intro s hs
  obtain ⟨name, -, hs⟩ := mem_flatMap.mp hs
  obtain ⟨s', hs', rfl⟩ := mem_map.mp hs
  obtain ⟨f, hf, hs'⟩ := mem_flatMap.mp (mem_filter.mp hs').1
  have hkey := hd.kept.isKey_of_mem (Declarations.mem_of_mem_functions (mem_filter.mp hf).1)
  simp only [Identity.isKey, Bool.and_eq_true] at hkey
  obtain ⟨hcallee, hfile, hline⟩ := h.sitesOf hf hkey.1.2 s' hs'
  exact ⟨hcallee, hfile, hline⟩

theorem isText_addNode (hg : ∀ k ∈ g.nodes.keys, k.IsText) {name : Json} (hname : name.IsText)
    (isExternal : Bool) (record : Identity) :
    ∀ k ∈ (g.addNode name isExternal record).nodes.keys, k.IsText := by
  unfold addNode
  rw [keys_putNew]
  split
  · exact hg
  · exact forall_mem_append.mpr ⟨hg, forall_mem_singleton.mpr hname⟩

theorem isText_link (hg : ∀ k ∈ g.nodes.keys, k.IsText) (includeExternal : Bool) {s : CallSite}
    (hs : s.callee.IsText) : ∀ k ∈ (link d includeExternal g s).nodes.keys, k.IsText := by
  have hext : ∀ k ∈ (addExternal d includeExternal g s.callee).nodes.keys, k.IsText := by
    unfold addExternal
    split
    · exact hg
    · split
      · exact isText_addNode hg hs true _
      · exact hg
  unfold link
  dsimp only
  split
  · unfold addEdge
    split <;> exact hext
  · exact hext

theorem exists_build (hd : d.Reached) (h : HasTextCalls d bodies) (includeExternal : Bool) :
    ∃ g, build d bodies includeExternal = .ok g := by
  have hsites := h.allSites hd
  have hlinkable (g : CallGraph) : (allSites d bodies).all (isLinkable g) := by
    refine all_eq_true.mpr fun s hs => ?_
    obtain ⟨⟨t, ht⟩, hfile, hline⟩ := hsites s hs
    have hcallee : s.callee.isKey := by rw [ht]; rfl
    rw [isLinkable, hcallee, hfile, hline, Bool.and_true, Bool.or_true, Bool.and_true]
  -- All names stay texts, so the check for names that differ from themselves passes.
  have hdefined : ∀ k ∈ (d.definedFunctions.foldl (fun (g : CallGraph) f =>
      g.addNode f.name false (Entity.function f).identity) .empty).nodes.keys, k.IsText := by
    refine foldlRecOn d.definedFunctions _ (motive := fun g : CallGraph =>
      ∀ k ∈ g.nodes.keys, k.IsText) (fun _ h => absurd h not_mem_nil) fun g hg f hf => ?_
    exact isText_addNode hg (h.name f hf) false _
  have htexts : ∀ k ∈ ((allSites d bodies).foldl (link d includeExternal)
      (d.definedFunctions.foldl (fun (g : CallGraph) f =>
        g.addNode f.name false (Entity.function f).identity) .empty)).nodes.keys, k.IsText := by
    refine foldlRecOn (allSites d bodies) _ (motive := fun g : CallGraph =>
      ∀ k ∈ g.nodes.keys, k.IsText) hdefined fun g hg s hs => ?_
    exact isText_link hg includeExternal (hsites s hs).callee
  unfold build
  dsimp only
  rw [hlinkable, if_neg (by simp), if_neg]
  · exact ⟨_, rfl⟩
  · rw [any_eq_true]
    rintro ⟨k, hk, hnan⟩
    obtain ⟨t, rfl⟩ := htexts k hk
    cases hnan

end CallGraph

namespace Session

theorem run_callGraph_of_some {s : Session} {g : CallGraph} (h : s.calls = some g) :
    callGraph.run.run s = (.ok g, s) := by
  have hget : (get : Question Session).run.run s = (.ok s, s) := rfl
  rw [callGraph, run_bind, hget]
  dsimp only
  rw [h]
  rfl

theorem run_callGraphFrom (s : Session) (root limit : Json) :
    (callGraphFrom root limit).run.run s = match s.function root with
      | .error e => (.error e, s)
      | .ok _ => match callGraph.run.run s with
        | (.ok g, s') => (g.subgraph root limit, s')
        | (.error e, s') => (.error e, s') := by
  have hget : (get : Question Session).run.run s = (.ok s, s) := rfl
  rw [callGraphFrom, run_bind, hget]
  dsimp only
  cases hf : s.function root with
  | error e => rfl
  | ok f =>
    show (callGraph >>= fun g => liftM (g.subgraph root limit)).run.run s = _
    rw [run_bind]
    rcases callGraph.run.run s with ⟨e | g, s'⟩ <;> rfl

theorem state_callGraphFrom (s : Session) (root limit : Json) :
    ((callGraphFrom root limit).run.run s).2 = s ∨
      ((callGraphFrom root limit).run.run s).2 = (callGraph.run.run s).2 := by
  rw [run_callGraphFrom]
  cases s.function root with
  | error e => exact .inl rfl
  | ok f =>
    rcases callGraph.run.run s with ⟨e | g, s'⟩
    · exact .inr rfl
    · exact .inr rfl

end Session

namespace CallGraph

/-- In the call graph of a unit, and in every part of it with the calls that are left there, exactly
the functions on a cycle of calls are marked, and exactly these are among what they call.  There is
such a graph where names are texts, and a part for every function and every limit.  Where the graph
is there, asking for a part changes nothing in a session; where it is not, nothing but what asking
for the whole graph changes. -/
theorem build_marks_call_cycles {d : Declarations} (hd : d.Reached) (bodies : Table Json Tree)
    (includeExternal : Bool) :
    (HasTextCalls d bodies → ∃ g, build d bodies includeExternal = .ok g) ∧
    (∀ g, build d bodies includeExternal = .ok g → g.MarksCycles ∧
      (∀ root ∈ g.nodes.keys, ∀ n : Int, ∃ sub, g.subgraph root (.int n) = .ok sub) ∧
      (∀ root limit sub, g.subgraph root limit = .ok sub → sub.MarksCycles) ∧
      ∀ s : Session, s.calls = some g → ∀ root limit,
        ((Session.callGraphFrom root limit).run.run s).2 = s) ∧
    ∀ (s : Session) (root limit : Json), ((Session.callGraphFrom root limit).run.run s).2 = s ∨
      ((Session.callGraphFrom root limit).run.run s).2 = (Session.callGraph.run.run s).2 := by
  refine ⟨fun h => exists_build hd h includeExternal, fun g hg => ?_, state_callGraphFrom⟩
  have hlinked := (Arises.build hd hg).isLinked
  obtain ⟨g0, hg0, rfl⟩ := exists_linked_of_build hd hg
  refine ⟨hg0.marksCycles, fun root hroot n => hlinked.exists_subgraph hroot n, ?_, ?_⟩
  · intro root limit sub hsub
    obtain ⟨sub0, hsub0, rfl⟩ := hlinked.exists_linked_of_subgraph hsub
    exact hsub0.marksCycles
  · intro s hs root limit
    rcases state_callGraphFrom s root limit with h | h
    · exact h
    · rw [h, run_callGraph_of_some hs]

/-! ### Two functions that call each other -/

def calling (name : String) (line : Int) (calls : List Json) : FunctionDecl :=
  { FunctionDecl.named (.str name) with line := .int line, calls := calls }

def even : FunctionDecl := calling "even" 1 [.str "odd"]

def odd : FunctionDecl := calling "odd" 2 [.str "even", .str "odd"]

def caller : FunctionDecl := calling "main" 3 [.str "even"]

/-- Whether a number is even and whether it is odd, where the second also calls itself. -/
def parity : Declarations :=
  (Declarations.empty .lp64).addAll [.function even, .function odd, .function caller]

def parityNode (f : FunctionDecl) (depth : Option Nat) (isRecursive : Bool) : Json × CallNode :=
  (f.name, ⟨f.name, false, (Entity.function f).identity, depth, isRecursive⟩)

def parityCall (f g : FunctionDecl) : CallSite := ⟨f.name, g.name, .str "", .int 0⟩

def parityGraph : CallGraph :=
  ⟨⟨[parityNode even none true, parityNode odd none true, parityNode caller none false]⟩,
    [parityCall even odd, parityCall odd even, parityCall odd odd, parityCall caller even], [],
    none⟩

def parityPart : CallGraph :=
  ⟨⟨[parityNode caller (some 0) false, parityNode even (some 1) false]⟩,
    [parityCall caller even], [], some caller.name⟩

theorem reached_parity : parity.Reached := (Declarations.Reached.empty .lp64).addAll _

theorem hasTextCalls_parity : HasTextCalls parity .empty := by
  have hdefined : parity.definedFunctions = [even, odd, caller] := by cbv
  refine ⟨?_, ?_, fun _ h => absurd h not_mem_nil⟩ <;> rw [hdefined]
  · simp [even, odd, caller, calling, FunctionDecl.named, Json.IsText]
  · simp [even, odd, caller, calling, FunctionDecl.named, Json.IsText]

theorem isLinked_parityGraph : parityGraph.IsLinked :=
  (Arises.build reached_parity (by rfl : build parity .empty true = .ok parityGraph)).isLinked

/-- Both functions are on a cycle.  In the part within one call of their caller the cycle is cut,
and the first is on none. -/
theorem build_marks_call_cycles_parity :
    parity.Reached ∧ HasTextCalls parity .empty ∧ build parity .empty true = .ok parityGraph ∧
    parityGraph.subgraph caller.name (.int 1) = .ok parityPart ∧
    Relation.TransGen parityGraph.Calls even.name even.name ∧
    Relation.TransGen parityGraph.Calls odd.name odd.name ∧
    ¬Relation.TransGen parityGraph.Calls caller.name caller.name ∧
    ¬Relation.TransGen parityPart.Calls even.name even.name := by
  have hbuild : build parity .empty true = .ok parityGraph := by rfl
  have hpart : parityGraph.subgraph caller.name (.int 1) = .ok parityPart := by rfl
  obtain ⟨-, hmarks, -⟩ := build_marks_call_cycles reached_parity .empty true
  obtain ⟨hgraph, -, hparts, -⟩ := hmarks _ hbuild
  have hpartMarks := hparts _ _ _ hpart
  refine ⟨reached_parity, hasTextCalls_parity, hbuild, hpart, ?_, ?_, ?_, ?_⟩
  · exact (hgraph (parityNode even none true).2 (by simp [parityGraph, Table.values])).1.mp rfl
  · exact (hgraph (parityNode odd none true).2 (by simp [parityGraph, Table.values])).1.mp rfl
  · intro h
    cases (hgraph (parityNode caller none false).2
      (by simp [parityGraph, Table.values])).1.mpr h
  · intro h
    cases (hpartMarks (parityNode even (some 1) false).2
      (by simp [parityPart, Table.values])).1.mpr h

end CallGraph

end Branchwise
