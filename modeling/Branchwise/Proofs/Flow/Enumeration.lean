import Branchwise.Flow.Analysis
import Branchwise.Proofs.Flow.Wiring
import Branchwise.Proofs.Graph.Components

/-!
# The paths of a flow graph

The search for paths goes along the routes of the graph.  `Sound` is what the list of found paths
keeps, and `Grows` says that nothing found is lost.  If the search does not stop at its limit, every
route is the start of a found path.
-/

namespace Branchwise

open FlowGraph List Option

/-! ## Routes through a flow graph

A route starts at the entry and never comes twice to the same node; from a loop it has been in, it
may go on at the end of that loop.  In a wired graph its nodes are still reached along edges, and it
takes no branch twice. -/

namespace FlowGraph

inductive Route (g : FlowGraph) : List Nat → Prop
  | start : Route g [entry]
  | step {u v : Nat} {ws : List Nat} : Route g (u :: ws) → v ∈ g.successors u → v ∉ u :: ws →
      Route g (v :: u :: ws)
  | leave {u h e : Nat} {ws : List Nat} : Route g (u :: ws) → h ∈ g.successors u → h ∈ u :: ws →
      g.loopExitAt h = some e → e ∉ u :: ws → Route g (e :: u :: ws)

namespace Route

variable {g : FlowGraph} {ws : List Nat}

theorem nodup (h : g.Route ws) : ws.Nodup := by
  induction h with
  | start => exact nodup_singleton _
  | step _ _ hnew ih => exact nodup_cons.mpr ⟨hnew, ih⟩
  | leave _ _ _ _ hnew ih => exact nodup_cons.mpr ⟨hnew, ih⟩

theorem tail {u v : Nat} (h : g.Route (v :: u :: ws)) : g.Route (u :: ws) := by
  cases h with
  | step h _ _ => exact h
  | leave h _ _ _ _ => exact h

theorem of_append (pre : List Nat) {v : Nat} (h : g.Route (pre ++ v :: ws)) :
    g.Route (v :: ws) := by
  induction pre with
  | nil => exact h
  | cons x pre ih =>
    cases pre with
    | nil => exact h.tail
    | cons y pre => exact ih h.tail

theorem exists_append (h : g.Route ws) : ∃ pre, ws = pre ++ [entry] := by
  induction h with
  | start => exact ⟨[], rfl⟩
  | @step _ v _ _ _ _ ih =>
    obtain ⟨pre, heq⟩ := ih
    exact ⟨v :: pre, congrArg (v :: ·) heq⟩
  | @leave _ _ e _ _ _ _ _ _ ih =>
    obtain ⟨pre, heq⟩ := ih
    exact ⟨e :: pre, congrArg (e :: ·) heq⟩

theorem exists_of_reaches {v : Nat} (h : Digraph.Reaches g.successors entry v) :
    ∃ ws, g.Route (v :: ws) := by
  induction h with
  | refl => exact ⟨[], .start⟩
  | @tail u v _ hv ih =>
    obtain ⟨ws, hroute⟩ := ih
    by_cases hmem : v ∈ u :: ws
    · obtain ⟨pre, post, heq⟩ := append_of_mem hmem
      rw [heq] at hroute
      exact ⟨post, hroute.of_append pre⟩
    · exact ⟨u :: ws, .step hroute hv hmem⟩

end Route

end FlowGraph

namespace Draft

open FlowGraph

variable {d : Draft} {ws : List Nat}

section

variable (hd : d.Complete)
include hd

theorem Complete.exists_pred (h : d.graph.Route ws) {v : Nat} (hv : v ∈ ws)
    (hs : d.graph.Sealed v) : ∃ pre w post, ws = pre ++ v :: w :: post ∧ d.Edge w v := by
  induction h with
  | start =>
    rw [mem_singleton] at hv
    subst hv
    exact absurd hs hd.not_sealed_entry
  | @step u x ws _ hx _ ih =>
    rcases mem_cons.mp hv with rfl | hv
    · exact ⟨[], u, ws, rfl, hx⟩
    · obtain ⟨pre, w, post, heq, hw⟩ := ih hv
      exact ⟨x :: pre, w, post, by rw [heq]; rfl, hw⟩
  | @leave u top e ws _ _ _ he _ ih =>
    rcases mem_cons.mp hv with rfl | hv
    · exact absurd hs (hd.loop_closed top v he).exit_target.2.2
    · obtain ⟨pre, w, post, heq, hw⟩ := ih hv
      exact ⟨e :: pre, w, post, by rw [heq]; rfl, hw⟩

theorem Complete.reaches_source {v test : Nat} (hs : d.graph.Sealed v)
    (hin : ∀ u, d.Edge u v → u = test) (h : Digraph.Reaches d.graph.successors entry v) :
    Digraph.Reaches d.graph.successors entry test := by
  rcases Relation.ReflTransGen.cases_tail h with rfl | ⟨u, hu, hv⟩
  · exact absurd hs hd.not_sealed_entry
  · exact hin u hv ▸ hu

theorem Complete.reaches_exit {u top e : Nat} (hroute : d.graph.Route (u :: ws))
    (hreach : ∀ x ∈ u :: ws, Digraph.Reaches d.graph.successors entry x) (hback : d.Edge u top)
    (htop : top ∈ u :: ws) (he : d.graph.loopExitAt top = some e) :
    Digraph.Reaches d.graph.successors entry e := by
  cases (hd.loop_closed top e he).closes with
  | first f test leave => exact ((hreach top htop).tail test).tail leave
  | last test t f isEntry le back isArm arm other leave =>
    -- The arm that repeats the loop is on the route: the loop is come to again from it, or was come
    -- to from it before, since only one node before the loop leads to it.
    have ht : t ∈ u :: ws := by
      by_contra hnot
      have hbefore : ∀ x ∈ u :: ws, d.Edge x top → x < top := by
        intro x hx hedge
        by_contra hlt
        have heq := hd.loop_entered top isEntry x t hedge back (by omega)
        exact hnot (heq ▸ hx)
      obtain ⟨pre, w, post, heq, hw⟩ := hd.exists_pred hroute htop (.inr isEntry)
      have hu := hbefore u mem_cons_self hback
      have hlt := hbefore w (by rw [heq]; simp) hw
      obtain rfl := hd.loop_entered top isEntry w u hw hback (by omega)
      have hnodup := hroute.nodup
      rw [heq] at hnodup
      cases pre with
      | nil =>
        obtain ⟨rfl, _⟩ := cons.inj heq
        omega
      | cons x pre =>
        obtain ⟨rfl, _⟩ := cons.inj heq
        simp at hnodup
    obtain ⟨i, hi⟩ := ne_none_iff_exists'.mp isArm
    obtain ⟨b, -, -, hin⟩ := hd.arm_entered t i hi
    have htest := hd.reaches_source (.inl isArm)
      (fun x hx => ((hin x).mp hx).trans ((hin test).mp arm).symm) (hreach t ht)
    exact (htest.tail other).tail leave

section

variable (h : d.graph.Route ws)
include h

theorem Complete.reaches_of_mem : ∀ v ∈ ws, Digraph.Reaches d.graph.successors entry v := by
  induction h with
  | start =>
    intro v hv
    rw [mem_singleton.mp hv]
    exact .refl
  | @step u x ws _ hx _ ih =>
    intro v hv
    rcases mem_cons.mp hv with rfl | hv
    · exact (ih u mem_cons_self).tail hx
    · exact ih v hv
  | @leave u top e ws hroute hback htop he _ ih =>
    intro v hv
    rcases mem_cons.mp hv with rfl | hv
    · exact hd.reaches_exit hroute ih hback htop he
    · exact ih v hv

theorem Complete.lt_of_mem {v : Nat} (hv : v ∈ ws) : v < d.size := by
  rcases Relation.ReflTransGen.cases_tail (hd.reaches_of_mem h v hv) with rfl | ⟨u, _, he⟩
  · exact Nat.zero_lt_two.trans_le hd.two_le
  · exact (hd.edge_ends u v he).2.1

theorem Complete.length_le : ws.length ≤ d.size := by
  have hsub : ws ⊆ range d.size := fun v hv => mem_range.mpr (hd.lt_of_mem h hv)
  exact (h.nodup.length_le_of_subset hsub).trans_eq length_range

theorem Complete.arm_unique {v v' i : Nat} (hv : v ∈ ws) (hv' : v' ∈ ws)
    (hi : d.graph.armAt v = some i) (hi' : d.graph.armAt v' = some i) : v = v' := by
  obtain ⟨b, hb, _, hin⟩ := hd.arm_entered v i hi
  obtain ⟨b', hb', _, hin'⟩ := hd.arm_entered v' i hi'
  cases hb.symm.trans hb'
  have hs : ∀ {x}, d.graph.armAt x = some i → d.graph.Sealed x := fun hx =>
    .inl (by rw [hx]; exact some_ne_none i)
  obtain ⟨pre, w, post, heq, hw⟩ := hd.exists_pred h hv (hs hi)
  obtain ⟨pre', w', post', heq', hw'⟩ := hd.exists_pred h hv' (hs hi')
  obtain rfl := (hin w).mp hw
  obtain rfl := (hin' w').mp hw'
  -- The decision stands once on the route, and each of the two arms right after it.
  have hnodup := h.nodup
  rw [heq, append_cons, nodup_append, nodup_cons] at hnodup
  rw [heq, append_cons, append_cons pre'] at heq'
  have hpre : b.decisionNode ∉ pre ++ [v] := fun hmem =>
    hnodup.2.2 _ hmem _ mem_cons_self rfl
  obtain ⟨hlast, -⟩ := (append_cons_inj_of_notMem hpre hnodup.2.1.1).mp heq'
  exact (append_singleton_inj.mp hlast).2

theorem Complete.nodup_branchesAlong : (d.graph.branchesAlong ws.reverse).Nodup := by
  refine pairwise_filterMap.mpr ?_
  refine (nodup_reverse.mpr h.nodup).pairwise_of_forall_ne fun v hv v' hv' hne => ?_
  rintro i hi i' hi' rfl
  exact hne (hd.arm_unique h (mem_reverse.mp hv) (mem_reverse.mp hv') hi hi')

theorem Complete.exists_branch {i : Nat} (hi : i ∈ d.graph.branchesAlong ws.reverse) :
    ∃ b ∈ d.branches, b.id = i ∧
      ∃ v, b.armNode = some v ∧ Digraph.Reaches d.graph.successors entry v := by
  obtain ⟨u, hu, harm⟩ := mem_filterMap.mp hi
  obtain ⟨b, hb, hsome, hin⟩ := hd.arm_entered u i harm
  obtain ⟨v, hv⟩ := ne_none_iff_exists'.mp hsome
  refine ⟨b, mem_of_getElem? hb, hd.branch_id i b hb, v, hv, ?_⟩
  -- Both arms hang on the decision, should there be two of them.
  have hs : d.graph.Sealed u := .inl (by rw [armAt, harm]; exact some_ne_none i)
  have hdecision := hd.reaches_source hs (fun x hx => (hin x).mp hx)
    (hd.reaches_of_mem h u (mem_reverse.mp hu))
  obtain ⟨b', hb', _, hin'⟩ := hd.arm_entered v i (hd.armAt_of i b v hb hv)
  cases hb.symm.trans hb'
  exact hdecision.tail ((hin' _).mpr rfl)

end

theorem Complete.exists_route {b : Branch} (hb : b ∈ d.branches) {v : Nat}
    (hv : b.armNode = some v) (h : Digraph.Reaches d.graph.successors entry v) :
    ∃ ws, d.graph.Route ws ∧ b.id ∈ d.graph.branchesAlong ws.reverse := by
  obtain ⟨ws, hroute⟩ := Route.exists_of_reaches h
  obtain ⟨i, hi⟩ := mem_iff_getElem?.mp hb
  refine ⟨v :: ws, hroute, mem_filterMap.mpr ⟨v, by simp, ?_⟩⟩
  rw [hd.branch_id i b hi]
  exact hd.armAt_of i b v hi hv

end

end Draft

/-! ## Found paths -/

namespace PathSearch

variable {f : PathSearch → Nat → PathSearch} {s : PathSearch}

/-- A later search has found more paths after those of an earlier one. -/
structure Grows (s s' : PathSearch) : Prop where
  suffix : s.found <:+ s'.found
  count_le : s.count ≤ s'.count
  counted : s.count = s.found.length → s'.count = s'.found.length

theorem Grows.refl (s : PathSearch) : Grows s s := ⟨suffix_rfl, le_rfl, id⟩

theorem Grows.trans {s' s'' : PathSearch} (h : Grows s s') (h' : Grows s' s'') : Grows s s'' :=
  ⟨h.suffix.trans h'.suffix, h.count_le.trans h'.count_le, fun hs => h'.counted (h.counted hs)⟩

theorem Grows.isFull_eq_false {s' : PathSearch} {limit : Option Nat} (h : Grows s s')
    (hs : s'.isFull limit = false) : s.isFull limit = false := by
  cases limit with
  | none => rfl
  | some n =>
    simp only [isFull, decide_eq_false_iff_not, Nat.not_le] at hs ⊢
    exact h.count_le.trans_lt hs

theorem isFull_eq_false_of_lt {limit : Option Nat}
    (h : ∀ n, limit = some n → s.count < n) : s.isFull limit = false := by
  cases limit with
  | none => rfl
  | some n => exact decide_eq_false (Nat.not_le.mpr (h n rfl))

theorem grows_record (s : PathSearch) (conditions : Array String) (bs : List Nat)
    (lines : List Json) : Grows s (s.record conditions bs lines) := by
  unfold record
  split
  · exact Grows.refl s
  · exact ⟨suffix_cons _ _, Nat.le_succ _, congrArg (· + 1)⟩

theorem exists_mem_record (s : PathSearch) (conditions : Array String) (bs : List Nat)
    (lines : List Json) : ∃ p ∈ (s.record conditions bs lines).found, p.branches = bs := by
  unfold record
  split
  · rename_i h
    obtain ⟨p, hp, heq⟩ := any_eq_true.mp h
    exact ⟨p, hp, of_decide_eq_true heq⟩
  · exact ⟨_, mem_cons_self, rfl⟩

theorem grows_foldl (hf : ∀ s v, Grows s (f s v))
    (vs : List Nat) (s : PathSearch) : Grows s (vs.foldl f s) := by
  induction vs generalizing s with
  | nil => exact Grows.refl s
  | cons v vs ih => exact (hf s v).trans (ih (f s v))

theorem exists_grows_foldl (hf : ∀ s v, Grows s (f s v))
    {vs : List Nat} {v : Nat} (hv : v ∈ vs) (s : PathSearch) :
    ∃ s', Grows (f s' v) (vs.foldl f s) := by
  obtain ⟨pre, post, rfl⟩ := append_of_mem hv
  rw [foldl_append]
  exact ⟨_, grows_foldl hf post _⟩

/-- The found paths are numbered, differ in their branches, keep to the limit and go along
routes. -/
structure Sound (g : FlowGraph) (limit : Option Nat) (s : PathSearch) : Prop where
  ids_eq : s.found.reverse.map FlowPath.id = range s.found.length
  count_eq : s.count = s.found.length
  nodup : (s.found.map FlowPath.branches).Nodup
  within : ∀ n, limit = some n → s.count ≤ n
  route : ∀ p ∈ s.found, ∃ ws, g.Route ws ∧ p.branches = g.branchesAlong ws.reverse

variable {g : FlowGraph} {limit : Option Nat}

theorem sound_start : Sound g limit start where
  ids_eq := rfl
  count_eq := rfl
  nodup := nodup_nil
  within := fun _ _ => Nat.zero_le _
  route := nofun

theorem Sound.record (h : Sound g limit s) (hs : s.isFull limit = false)
    (conditions : Array String) (lines : List Json) {ws : List Nat} (hws : g.Route ws) :
    Sound g limit (s.record conditions (g.branchesAlong ws.reverse) lines) := by
  unfold PathSearch.record
  split
  · exact h
  · rename_i hnew
    refine
      { ids_eq := ?_, count_eq := congrArg (· + 1) h.count_eq, nodup := ?_, within := ?_
        route := ?_ }
    · rw [reverse_cons, map_append, h.ids_eq, length_cons, range_succ,
        ← h.count_eq]
      rfl
    · refine nodup_cons.mpr ⟨fun hmem => hnew ?_, h.nodup⟩
      obtain ⟨p, hp, heq⟩ := mem_map.mp hmem
      exact any_eq_true.mpr ⟨p, hp, decide_eq_true heq⟩
    · rintro n rfl
      simpa [isFull] using hs
    · intro p hp
      rcases mem_cons.mp hp with rfl | hp
      · exact ⟨ws, hws, rfl⟩
      · exact h.route p hp

theorem Sound.foldl {vs : List Nat}
    (hf : ∀ s, ∀ v ∈ vs, Sound g limit s → Sound g limit (f s v))
    (h : Sound g limit s) : Sound g limit (vs.foldl f s) := by
  induction vs generalizing s with
  | nil => exact h
  | cons v vs ih =>
    exact ih (fun s w hw => hf s w (mem_cons_of_mem _ hw)) (hf s v mem_cons_self h)

end PathSearch

/-! ## Where a search goes on -/

namespace PathGrid

open PathSearch

/-- What recording a path preserves, a search preserves. -/
theorem explore_preserves {P : PathSearch → Prop} (grid : PathGrid) (limit : Option Nat)
    (hrecord : ∀ s bs lines, P s → P (s.record grid.conditions bs lines)) (fuel u : Nat)
    (bs : List Nat) (lines : List Json) (onPath : NatSet) {s : PathSearch} (h : P s) :
    P (grid.explore limit fuel u bs lines onPath s) := by
  induction fuel generalizing u bs lines onPath s with
  | zero => exact h
  | succ fuel ih =>
    unfold explore
    split
    · exact h
    · dsimp only
      split
      · exact hrecord s bs lines h
      · refine foldlRecOn _ _ ?_ fun s' hs' v _ => ?_
        · split
          · exact hrecord s bs lines h
          · exact h
        · split
          · exact ih _ _ _ _ hs'
          · exact hs'

theorem grows_explore (grid : PathGrid) (limit : Option Nat) (fuel u : Nat) (bs : List Nat)
    (lines : List Json) (onPath : NatSet) (s : PathSearch) :
    Grows s (grid.explore limit fuel u bs lines onPath s) :=
  grid.explore_preserves limit (fun s' _ _ h => h.trans (grows_record s' _ _ _)) _ _ _ _ _
    (Grows.refl s)

end PathGrid

namespace Draft

open PathSearch PathGrid

variable {d : Draft} {ws : List Nat} {onPath : NatSet} {u : Nat} {function : Json} {body : Tree}

def grid (d : Draft) : PathGrid := .ofGraph d.graph d.branches

def Holds (onPath : NatSet) (ws : List Nat) : Prop := ∀ x, onPath.contains x ↔ x ∈ ws

theorem Holds.insert (h : Holds onPath ws) (v : Nat) : Holds (onPath.insert v) (v :: ws) := by
  intro x
  rw [NatSet.contains_insert, Bool.or_eq_true, h x, beq_iff_eq, mem_cons, or_comm, eq_comm]

theorem holds_empty : Holds NatSet.empty [] := fun x => by simp [NatSet.contains_empty]

theorem holds_entry : Holds (NatSet.empty.insert entry) [entry] :=
  holds_empty.insert entry

theorem node?_grid (d : Draft) (u : Nat) : d.grid.nodes[u]? = d.graph.node? u :=
  getElem?_toArray

theorem Complete.next_grid (hd : d.Complete) (hu : u < d.size) :
    (d.grid.next[u]?).getD [] = d.graph.successors u := by
  obtain ⟨n, hn⟩ : ∃ n, d.graph.node? u = some n := ⟨_, getElem?_eq_getElem hu⟩
  show ((d.graph.nodes.map fun n => d.graph.successors n.id).toArray[u]?).getD [] = _
  rw [getElem?_toArray, getElem?_map, show d.graph.nodes[u]? = some n from hn,
    map_some, getD_some, hd.node_id u n hn]

theorem landing?_eq_some_iff (hon : Holds onPath ws) {n v : Nat} :
    d.grid.landing? onPath n = some v ↔
      n ∉ ws ∧ v = n ∨ n ∈ ws ∧ d.graph.loopExitAt n = some v ∧ v ∉ ws := by
  unfold landing?
  rw [node?_grid]
  by_cases hn : n ∈ ws
  · have hc : onPath.contains n := (hon n).mpr hn
    rw [hc]
    simp only [Bool.not_true, Bool.false_eq_true, if_false, filter_eq_some_iff, hn,
      not_true_eq_false, false_and, true_and, false_or, Bool.not_eq_true', ← hon v,
      Bool.not_eq_true]
    rfl
  · have hc : onPath.contains n = false := by
      rw [Bool.eq_false_iff, Ne, hon n]
      exact hn
    rw [hc]
    simp [hn, eq_comm]

theorem mem_landings_iff (hroute : d.graph.Route (u :: ws))
    (hon : Holds onPath (u :: ws)) (v : Nat) :
    v ∈ (d.graph.successors u).filterMap (d.grid.landing? onPath) ↔
      d.graph.Route (v :: u :: ws) := by
  rw [mem_filterMap]
  constructor
  · rintro ⟨n, hn, hland⟩
    rcases (landing?_eq_some_iff hon).mp hland with ⟨hnew, rfl⟩ | ⟨hold, he, hnew⟩
    · exact .step hroute hn hnew
    · exact .leave hroute hn hold he hnew
  · intro h
    cases h with
    | step _ hn hnew => exact ⟨v, hn, (landing?_eq_some_iff hon).mpr (.inl ⟨hnew, rfl⟩)⟩
    | @leave _ n _ _ _ hn hold he hnew =>
      exact ⟨n, hn, (landing?_eq_some_iff hon).mpr (.inr ⟨hold, he, hnew⟩)⟩

theorem branchesAlong_concat (g : FlowGraph) (w : List Nat) (u : Nat) :
    g.branchesAlong (w ++ [u]) = g.branchesAlong w ++ (g.armAt u).toList := by
  unfold branchesAlong
  rw [filterMap_append]
  show _ ++ filterMap g.armAt [u] = _
  cases h : g.armAt u <;> simp [h]

/-- A path comes to an end where no step leads on, or where some step leads nowhere new. -/
def IsDeadEnd (d : Draft) (onPath : NatSet) (u : Nat) : Prop :=
  d.graph.successors u = [] ∨ ∃ n ∈ d.graph.successors u, d.grid.landing? onPath n = none

instance (d : Draft) (onPath : NatSet) (u : Nat) : Decidable (d.IsDeadEnd onPath u) :=
  inferInstanceAs (Decidable (_ ∨ _))

theorem Complete.exists_explore_succ (hd : d.Complete) (hroute : d.graph.Route (u :: ws))
    (hon : Holds onPath (u :: ws)) (limit : Option Nat) (lines : List Json) :
    ∃ lines' : Nat → List Json, ∀ fuel s,
      d.grid.explore limit (fuel + 1) u (d.graph.branchesAlong (u :: ws).reverse) lines onPath s =
        if s.isFull limit then s
        else ((d.graph.successors u).filterMap (d.grid.landing? onPath)).foldl
          (fun s v => d.grid.explore limit fuel v (d.graph.branchesAlong (v :: u :: ws).reverse)
            (lines' v) (onPath.insert v) s)
          (if d.IsDeadEnd onPath u then
            s.record d.grid.conditions (d.graph.branchesAlong (u :: ws).reverse) lines
          else s) := by
  refine ⟨fun v => ((d.grid.nodes[v]?).map (linesWith lines)).getD lines, fun fuel s => ?_⟩
  have hnext := hd.next_grid (hd.lt_of_mem hroute mem_cons_self)
  rw [explore]
  by_cases hfull : s.isFull limit
  · rw [if_pos hfull, if_pos hfull]
  · rw [if_neg hfull, if_neg hfull]
    rw [hnext]
    -- The search asks first whether control is at the exit, which has no edge on.
    by_cases hnil : d.graph.successors u = []
    · have hends : d.IsDeadEnd onPath u := .inl hnil
      simp [hnil, hends]
    · have hu : u ≠ exit := by
        rintro rfl
        exact hnil (eq_nil_iff_forall_not_mem.mpr fun v hv => (hd.edge_ends exit v hv).1.2 rfl)
      have hends : ((d.graph.successors u).any fun n => (d.grid.landing? onPath n).isNone) ↔
          d.IsDeadEnd onPath u := by
        simp [IsDeadEnd, hnil]
      have hguard : ¬(decide (u = exit) || (d.graph.successors u).isEmpty) := by
        simp [hu, hnil]
      rw [if_neg hguard]
      simp only [hends]
      refine foldl_ext _ _ _ fun s v hv => ?_
      have hlong := (mem_landings_iff hroute hon v).mp hv
      obtain ⟨n, hn⟩ : ∃ n, d.graph.node? v = some n :=
        ⟨_, getElem?_eq_getElem (hd.lt_of_mem hlong mem_cons_self)⟩
      have hbranches : branchesWith (d.graph.branchesAlong (u :: ws).reverse) n
          = d.graph.branchesAlong (v :: u :: ws).reverse := by
        rw [reverse_cons (a := v), branchesAlong_concat, armAt, hn, bind_some, branchesWith]
        cases n.branch <;> simp
      rw [node?_grid, hn]
      dsimp only
      rw [hbranches]
      rfl

/-! ## The search -/

theorem Complete.sound_explore (hd : d.Complete) (limit : Option Nat) (fuel : Nat)
    (hroute : d.graph.Route (u :: ws)) (hon : Holds onPath (u :: ws)) (lines : List Json)
    {s : PathSearch} (hs : Sound d.graph limit s) :
    Sound d.graph limit
      (d.grid.explore limit fuel u (d.graph.branchesAlong (u :: ws).reverse) lines onPath s) := by
  induction fuel generalizing u ws onPath lines s with
  | zero => exact hs
  | succ fuel ih =>
    obtain ⟨lines', heq⟩ := hd.exists_explore_succ hroute hon limit lines
    rw [heq]
    split
    · exact hs
    · rename_i hfull
      refine Sound.foldl (fun s v hv hs => ?_) ?_
      · exact ih ((mem_landings_iff hroute hon v).mp hv) (hon.insert v) _ hs
      · split
        · exact hs.record (Bool.eq_false_iff.mpr hfull) _ _ hroute
        · exact hs

theorem Complete.branchesAlong_entry (hd : d.Complete) :
    d.graph.branchesAlong [entry].reverse = [] := by
  show filterMap d.graph.armAt [entry] = []
  simp [hd.armAt_entry]

theorem Complete.sound_search (hd : d.Complete) (limit : Option Nat) :
    Sound d.graph limit
      (d.grid.explore limit (d.size + 1) entry [] [] (NatSet.empty.insert entry) .start) := by
  have hsound := hd.sound_explore limit (d.size + 1) .start holds_entry [] sound_start
  rwa [hd.branchesAlong_entry] at hsound

theorem Complete.explore_eq_of_lt (hd : d.Complete) (limit : Option Nat) (fuel more : Nat)
    (hroute : d.graph.Route (u :: ws)) (hon : Holds onPath (u :: ws)) (lines : List Json)
    (s : PathSearch) (hfuel : d.size < fuel + (u :: ws).length) :
    d.grid.explore limit (fuel + more) u (d.graph.branchesAlong (u :: ws).reverse) lines onPath s
      = d.grid.explore limit fuel u (d.graph.branchesAlong (u :: ws).reverse) lines onPath s := by
  induction fuel generalizing u ws onPath lines s with
  | zero =>
    have := hd.length_le hroute
    omega
  | succ fuel ih =>
    obtain ⟨lines', heq⟩ := hd.exists_explore_succ hroute hon limit lines
    rw [Nat.add_right_comm, heq, heq]
    split
    · rfl
    · refine foldl_ext _ _ _ fun s v hv => ?_
      refine ih ((mem_landings_iff hroute hon v).mp hv) (hon.insert v) _ s ?_
      rw [length_cons]
      omega

theorem branchesAlong_prefix_cons (g : FlowGraph) (v : Nat) (ws : List Nat) :
    g.branchesAlong ws.reverse <+: g.branchesAlong (v :: ws).reverse := by
  rw [reverse_cons, branchesAlong_concat]
  exact prefix_append _ _

theorem Complete.exists_mem_explore (hd : d.Complete) (limit : Option Nat) (fuel : Nat)
    (hroute : d.graph.Route (u :: ws)) (hon : Holds onPath (u :: ws)) (lines : List Json)
    (s : PathSearch) (hfuel : d.size < fuel + (u :: ws).length)
    (hopen : (d.grid.explore limit fuel u (d.graph.branchesAlong (u :: ws).reverse) lines onPath
      s).isFull limit = false) (pre : List Nat) (hlong : d.graph.Route (pre ++ u :: ws)) :
    ∃ p ∈ (d.grid.explore limit fuel u (d.graph.branchesAlong (u :: ws).reverse) lines onPath
      s).found, d.graph.branchesAlong (pre ++ u :: ws).reverse <+: p.branches := by
  induction fuel generalizing u ws onPath lines s pre with
  | zero =>
    have := hd.length_le hroute
    omega
  | succ fuel ih =>
    have hs := (grows_explore _ _ _ _ _ _ _ s).isFull_eq_false hopen
    obtain ⟨lines', heq⟩ := hd.exists_explore_succ hroute hon limit lines
    rw [heq, if_neg (Bool.eq_false_iff.mp hs)] at hopen ⊢
    generalize hfirst : (if d.IsDeadEnd onPath u then
        s.record d.grid.conditions (d.graph.branchesAlong (u :: ws).reverse) lines
      else s) = s1 at hopen ⊢
    have hgrows : ∀ s v, Grows s (d.grid.explore limit fuel v
        (d.graph.branchesAlong (v :: u :: ws).reverse) (lines' v) (onPath.insert v) s) :=
      fun s v => grows_explore _ _ _ _ _ _ _ s
    have hpart := fun v hv => exists_grows_foldl hgrows ((mem_landings_iff hroute hon v).mpr hv) s1
    have hkept := grows_foldl hgrows ((d.graph.successors u).filterMap (d.grid.landing? onPath)) s1
    generalize foldl _ s1 _ = r at hopen hpart hkept ⊢
    -- The search from a next node is part of the search, so what it finds is found.
    have hnext : ∀ (v : Nat) (pre : List Nat), d.graph.Route (v :: u :: ws) →
        d.graph.Route (pre ++ v :: u :: ws) → ∃ p ∈ r.found,
          d.graph.branchesAlong (pre ++ v :: u :: ws).reverse <+: p.branches := by
      intro v pre hv hlong
      obtain ⟨s', hs'⟩ := hpart v hv
      obtain ⟨p, hp, hpre⟩ := ih hv (hon.insert v) (lines' v) s' (by rw [length_cons]; omega)
        (hs'.isFull_eq_false hopen) pre hlong
      exact ⟨p, hs'.suffix.mem hp, hpre⟩
    rcases eq_nil_or_concat pre with rfl | ⟨pre, v, rfl⟩
    · by_cases hends : d.IsDeadEnd onPath u
      · rw [if_pos hends] at hfirst
        obtain ⟨p, hp, hbranches⟩ := exists_mem_record s d.grid.conditions
          (d.graph.branchesAlong (u :: ws).reverse) lines
        rw [hfirst] at hp
        exact ⟨p, hkept.suffix.mem hp, hbranches ▸ prefix_rfl⟩
      · -- Every step leads on, and the path found there starts with this route.
        obtain ⟨hne, hland⟩ := not_or.mp hends
        obtain ⟨n, hn⟩ := exists_mem_of_ne_nil _ hne
        obtain ⟨v, hv⟩ := ne_none_iff_exists'.mp fun h => hland ⟨n, hn, h⟩
        have hroute' := (mem_landings_iff hroute hon v).mp (mem_filterMap.mpr ⟨n, hn, hv⟩)
        obtain ⟨p, hp, hpre⟩ := hnext v [] hroute' hroute'
        exact ⟨p, hp, (branchesAlong_prefix_cons d.graph v (u :: ws)).trans hpre⟩
    · rw [concat_append] at hlong ⊢
      exact hnext v pre (hlong.of_append pre) hlong

/-! ## The listed paths -/

theorem ofBody_eq_ok (h : ofBody function body = .ok d) : d = drawn function body := by
  unfold ofBody at h
  cases hcheck : checkTree body with
  | error e => rw [hcheck] at h; cases h
  | ok u =>
    rw [hcheck] at h
    dsimp only [bind, Except.bind] at h
    split at h
    · cases h
    · exact (Except.ok.inj h).symm

theorem ofBody_of_isOk (h : (ofBody function body).isOk) :
    ofBody function body = .ok (drawn function body) := by
  cases hd : ofBody function body with
  | error e => rw [hd] at h; cases h
  | ok d => rw [ofBody_eq_ok hd]

structure ListsBranches (d : Draft) (limit : Option Nat) (ps : List FlowPath) : Prop where
  /-- The search comes to its end: going deeper finds nothing else. -/
  found_eq : ∀ depth, d.size < depth → ps =
    (d.grid.explore limit depth entry [] [] (NatSet.empty.insert entry) .start).found.reverse
  length_le : ∀ n, limit = some n → ps.length ≤ n
  ids_eq : ps.map FlowPath.id = range ps.length
  nodup : (ps.map FlowPath.branches).Nodup
  /-- A path passes no node twice and takes its branches at the arms that it passes. -/
  along_route : ∀ p ∈ ps, ∃ ws, d.graph.Route ws ∧ ws.Nodup ∧
    p.branches = d.graph.branchesAlong ws.reverse
  nodup_branches : ∀ p ∈ ps, p.branches.Nodup
  arm_reached : ∀ p ∈ ps, ∀ i ∈ p.branches, ∃ b ∈ d.branches, b.id = i ∧
    ∃ v, b.armNode = some v ∧ Digraph.Reaches d.graph.successors entry v
  complete : (∀ n, limit = some n → ps.length < n) → ∀ b ∈ d.branches, ∀ v, b.armNode = some v →
    Digraph.Reaches d.graph.successors entry v → ∃ p ∈ ps, b.id ∈ p.branches

/-- The paths of any body that can be drawn are listed up to the limit, each with different
branches, and below the limit they take every branch whose arm is reached. -/
theorem paths_list_reached_branches {function : Json} {body : Tree}
    (h : ofBody function body = .ok d) (limit : Option Nat) :
    d.ListsBranches limit (d.graph.paths d.branches limit) := by
  have hd : d.Complete := ofBody_eq_ok h ▸ complete_drawn function body
  have hfuel : d.size < d.size + 1 + [entry].length := Nat.lt_succ_of_lt (Nat.lt_succ_self _)
  have hdeep := fun more => hd.explore_eq_of_lt limit (d.size + 1) more .start holds_entry []
    .start hfuel
  have hsound := hd.sound_search limit
  have hall := hd.exists_mem_explore limit (d.size + 1) .start holds_entry [] .start hfuel
  rw [hd.branchesAlong_entry] at hdeep hall
  show d.ListsBranches limit (d.grid.explore limit (d.size + 1) entry [] []
    (NatSet.empty.insert entry) .start).found.reverse
  refine
    { found_eq := ?_, length_le := ?_, ids_eq := ?_, nodup := ?_, along_route := ?_
      nodup_branches := ?_, arm_reached := ?_, complete := ?_ }
  · intro depth hdepth
    obtain ⟨more, rfl⟩ := Nat.exists_eq_add_of_le hdepth
    exact congrArg (fun s : PathSearch => s.found.reverse) (hdeep more).symm
  · intro n hn
    rw [length_reverse, ← hsound.count_eq]
    exact hsound.within n hn
  · rw [length_reverse]
    exact hsound.ids_eq
  · rw [map_reverse]
    exact nodup_reverse.mpr hsound.nodup
  · intro p hp
    obtain ⟨ws, hroute, heq⟩ := hsound.route p (mem_reverse.mp hp)
    exact ⟨ws, hroute, hroute.nodup, heq⟩
  · intro p hp
    obtain ⟨ws, hroute, heq⟩ := hsound.route p (mem_reverse.mp hp)
    exact heq ▸ hd.nodup_branchesAlong hroute
  · intro p hp i hi
    obtain ⟨ws, hroute, heq⟩ := hsound.route p (mem_reverse.mp hp)
    exact hd.exists_branch hroute (heq ▸ hi)
  · intro hlimit b hb v hv hreach
    obtain ⟨ws, hroute, hmem⟩ := hd.exists_route hb hv hreach
    obtain ⟨pre, rfl⟩ := hroute.exists_append
    have hopen := isFull_eq_false_of_lt (s := d.grid.explore limit (d.size + 1) entry [] []
      (NatSet.empty.insert entry) .start) fun n hn => by
        rw [hsound.count_eq, ← length_reverse]
        exact hlimit n hn
    obtain ⟨p, hp, hpre⟩ := hall hopen pre hroute
    exact ⟨p, mem_reverse.mpr hp, hpre.subset hmem⟩

/-- A loop that is entered in its middle by a jump, with its test last, around a switch with two
defaults. -/
def tangledBody : Tree :=
  let bare := fun kind ts =>
    Tree.node ⟨kind, .null, .null, .null, .null, .null, .null, .null, .null⟩ ts
  bare .compound [
    bare .ifElse [bare .goto []],
    bare .doLoop [bare .compound [
      bare .label [bare .expression []],
      bare .switch [
        bare .default [bare .continue []],
        bare .default [bare .break []]]]]]

theorem paths_list_reached_branches_tangled :
    ∃ d, ofBody .null tangledBody = .ok d ∧
      (d.graph.paths d.branches (some 9)).map FlowPath.branches
        = [[0, 2, 3], [0, 2, 4], [1, 2, 3], [1, 2, 4]] ∧
      d.ListsBranches (some 9) (d.graph.paths d.branches (some 9)) := by
  have h : ofBody .null tangledBody = .ok (drawn .null tangledBody) :=
    ofBody_of_isOk (by decide +kernel)
  exact ⟨_, h, by decide +kernel, paths_list_reached_branches h (some 9)⟩

end Draft

/-! ## Paths up to a limit

A search with a limit goes the same way as the search without one, until it is full.  `Cut` relates
the two at every step: what the one has found is the beginning of what the other has found. -/

namespace PathSearch

theorem count_record_le (s : PathSearch) (conditions : Array String) (bs : List Nat)
    (lines : List Json) : (s.record conditions bs lines).count ≤ s.count + 1 := by
  unfold record
  split
  · exact Nat.le_succ _
  · exact le_rfl

structure Cut (n : Nat) (s t : PathSearch) : Prop where
  found_eq : s.found.reverse = t.found.reverse.take n
  cut_counted : s.count = s.found.length
  counted : t.count = t.found.length

variable {n : Nat} {s t t' : PathSearch}

theorem Cut.of_le (hs : s.count = s.found.length) (hle : s.count ≤ n) : Cut n s s where
  found_eq := by
    rw [take_of_length_le]
    rwa [length_reverse, ← hs]
  cut_counted := hs
  counted := hs

theorem Cut.eq_of_isFull_eq_false (h : Cut n s t) (hs : s.isFull (some n) = false) : s = t := by
  have hlt : s.count < n := by simpa [isFull] using hs
  have hlength : s.found.length = min n t.found.length := by
    simpa using congrArg length h.found_eq
  have hle : t.found.reverse.length ≤ n := by
    rw [length_reverse]
    have := h.cut_counted
    omega
  have hfound : s.found = t.found := by
    rw [← reverse_inj, h.found_eq, take_of_length_le hle]
  have hcount : s.count = t.count := by rw [h.cut_counted, h.counted, hfound]
  cases s
  cases t
  exact congrArg₂ PathSearch.mk hfound hcount

theorem Cut.of_isFull (h : Cut n s t) (hs : s.isFull (some n)) (ht : Grows t t') :
    Cut n s t' := by
  have hle : n ≤ s.count := by simpa [isFull] using hs
  have hlength : s.found.length = min n t.found.length := by
    simpa using congrArg length h.found_eq
  obtain ⟨more, hmore⟩ := ht.suffix
  refine ⟨?_, h.cut_counted, ht.counted h.counted⟩
  have hn : n ≤ t.found.reverse.length := by
    rw [length_reverse]
    have := h.cut_counted
    omega
  rw [← hmore, reverse_append, take_append_of_le_length hn, h.found_eq]

end PathSearch

open PathSearch

theorem PathGrid.cut_explore (grid : PathGrid) (n fuel u : Nat) (bs : List Nat) (lines : List Json)
    (onPath : NatSet) {s t : PathSearch} (h : Cut n s t) :
    Cut n (grid.explore (some n) fuel u bs lines onPath s)
      (grid.explore none fuel u bs lines onPath t) := by
  induction fuel generalizing u bs lines onPath s t with
  | zero => exact h
  | succ fuel ih =>
    by_cases hfull : s.isFull (some n)
    · have hstop : grid.explore (some n) (fuel + 1) u bs lines onPath s = s := by
        rw [explore, if_pos hfull]
      rw [hstop]
      exact h.of_isFull hfull (grid.grows_explore none (fuel + 1) u bs lines onPath t)
    · -- Both searches are at the same point, and one more path does not exceed the limit.
      obtain rfl := h.eq_of_isFull_eq_false (Bool.eq_false_iff.mpr hfull)
      have hlt : s.count < n := by simpa [isFull] using hfull
      have hrecord :
          Cut n (s.record grid.conditions bs lines) (s.record grid.conditions bs lines) :=
        .of_le ((grows_record s _ _ _).counted h.counted)
          ((count_record_le s _ _ _).trans hlt)
      have hopen : ¬s.isFull none := Bool.false_ne_true
      rw [explore, explore, if_neg hfull]
      dsimp only
      split
      · exact hrecord
      · refine foldl_rel ?_ fun v _ s t hst => ?_
        · split
          · exact hrecord
          · exact h
        · split
          · exact ih _ _ _ _ hst
          · exact hst

theorem FlowGraph.paths_some (g : FlowGraph) (branches : List Branch) (n : Nat) :
    g.paths branches (some n) = (g.paths branches none).take n :=
  (PathGrid.cut_explore _ n _ _ _ _ _ (.of_le rfl (Nat.zero_le n))).found_eq

namespace Draft

variable {d : Draft}

theorem Complete.map_id_paths (hd : d.Complete) :
    (d.graph.paths d.branches none).map FlowPath.id
      = range (d.graph.paths d.branches none).length := by
  have hids := (hd.sound_search none).ids_eq
  rw [← length_reverse] at hids
  exact hids

theorem Complete.mem_paths_iff (hd : d.Complete) (limit : Option Nat) (p : FlowPath) :
    p ∈ d.graph.paths d.branches limit ↔
      p ∈ d.graph.paths d.branches none ∧ ∀ n, limit = some n → p.id < n := by
  cases limit with
  | none => simp
  | some n =>
    rw [FlowGraph.paths_some]
    have hids := hd.map_id_paths
    generalize d.graph.paths d.branches none = ps at hids
    have hplace : ∀ i (hi : i < ps.length), ps[i].id = i := fun i hi => by
      have := congrArg (·[i]?) hids
      simpa [hi] using this
    constructor
    · intro hp
      obtain ⟨i, hi, rfl⟩ := mem_take_iff_getElem.mp hp
      have hi' := Nat.lt_min.mp hi
      refine ⟨List.getElem_mem _, fun m hm => ?_⟩
      rw [hplace i hi'.2, ← Option.some.inj hm]
      exact hi'.1
    · rintro ⟨hp, hlt⟩
      obtain ⟨i, hi, rfl⟩ := getElem_of_mem hp
      have hin := hlt n rfl
      rw [hplace i hi] at hin
      exact mem_take_iff_getElem.mpr ⟨i, Nat.lt_min.mpr ⟨hin, hi⟩, rfl⟩

end Draft

end Branchwise
