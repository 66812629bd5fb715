import Branchwise.Proofs.Graph.Cycles

/-!
# The order of the components

A component is finished after everything that it leads to, so the components are listed with
dependencies first, and so are their nodes.  Nodes that lead to each other have no such order; they
are neighbours in the list.
-/

namespace Branchwise.Digraph

open List

variable {α : Type}

/-- An arc between two components leads from a later one to an earlier one. -/
def DependenciesFirst (succ : α → List α) (cs : List (List α)) : Prop :=
  ∀ (i j : Nat) (c c' : List α), cs[i]? = some c → cs[j]? = some c' →
    ∀ a ∈ c, ∀ b ∈ c', b ∈ succ a → j ≤ i

structure IsDependencyOrder (dependsOn : α → α → Prop) (order : List α) : Prop where
  nodup : order.Nodup
  /-- The nodes that a node leads to and that lead back are its neighbours. -/
  adjacent : ∀ a ∈ order, ∃ before same after, order = before ++ same ++ after ∧
    ∀ b, b ∈ same ↔ Relation.ReflTransGen dependsOn a b ∧ Relation.ReflTransGen dependsOn b a
  first : ∀ a ∈ order, ∀ b, dependsOn a b → ¬Relation.ReflTransGen dependsOn b a →
    [b, a].Sublist order

theorem closed_of_reflTransGen {r : α → α → Prop} {P : α → Prop}
    (hclosed : ∀ a b, P a → r a b → P b) {a b : α} (ha : P a) (h : Relation.ReflTransGen r a b) :
    P b := by
  induction h with
  | refl => exact ha
  | tail _ hbc ih => exact hclosed _ _ ih hbc

theorem reflTransGen_iff_of_closed {r r' : α → α → Prop} {P : α → Prop}
    (hiff : ∀ a, P a → ∀ b, r a b ↔ r' a b) (hclosed : ∀ a b, P a → r a b → P b) {a b : α}
    (ha : P a) : Relation.ReflTransGen r a b ↔ Relation.ReflTransGen r' a b := by
  constructor
  · intro h
    induction h with
    | refl => exact .refl
    | tail hab hbc ih => exact ih.tail ((hiff _ (closed_of_reflTransGen hclosed ha hab) _).mp hbc)
  · intro h
    induction h with
    | refl => exact .refl
    | tail _ hbc ih => exact ih.tail ((hiff _ (closed_of_reflTransGen hclosed ha ih) _).mpr hbc)

theorem IsDependencyOrder.congr {r r' : α → α → Prop} {order : List α}
    (h : IsDependencyOrder r order) (hiff : ∀ a ∈ order, ∀ b, r a b ↔ r' a b)
    (hclosed : ∀ a b, a ∈ order → r a b → b ∈ order) : IsDependencyOrder r' order := by
  have hleads : ∀ a ∈ order, ∀ b, Relation.ReflTransGen r a b ↔ Relation.ReflTransGen r' a b :=
    fun a ha b => reflTransGen_iff_of_closed hiff hclosed ha
  refine ⟨h.nodup, fun a ha => ?_, fun a ha b hab hback => ?_⟩
  · obtain ⟨before, same, after, horder, hsame⟩ := h.adjacent a ha
    refine ⟨before, same, after, horder, fun b => ?_⟩
    constructor
    · intro hb
      have hmem : b ∈ order := by
        rw [horder]
        exact mem_append_left _ (mem_append_right _ hb)
      rw [← hleads a ha, ← hleads b hmem]
      exact (hsame b).mp hb
    · rintro ⟨hab, hba⟩
      have hab := (hleads a ha b).mpr hab
      have hmem : b ∈ order := closed_of_reflTransGen hclosed ha hab
      exact (hsame b).mpr ⟨hab, (hleads b hmem a).mpr hba⟩
  · have hab := (hiff a ha b).mpr hab
    rw [← hleads b (hclosed a b ha hab)] at hback
    exact h.first a ha b hab hback

variable {succ : α → List α} {nodes : List α} {cs : List (List α)}

theorem dependenciesFirst_of_closed (hnodup : cs.flatten.Nodup)
    (hclosed : ∀ ds, ds <+: cs → ∀ a ∈ ds.flatten, ∀ b ∈ succ a, b ∈ ds.flatten) :
    DependenciesFirst succ cs := by
  intro i j c c' hc hc' a ha b hb harc
  by_contra hlt
  -- The target lies in the segment that ends with the source, and also behind it.
  have hsource : a ∈ (cs.take (i + 1)).flatten :=
    mem_flatten.mpr ⟨c, mem_of_getElem? (i := i) (by simpa using hc), ha⟩
  have hfront : cs.take (i + 1) <+: cs := take_prefix _ _
  have htarget : b ∈ (cs.take (i + 1)).flatten := hclosed _ hfront a hsource b harc
  have hbehind : b ∈ (cs.drop (i + 1)).flatten := by
    refine mem_flatten.mpr ⟨c', mem_of_getElem? (i := j - (i + 1)) ?_, hb⟩
    rw [getElem?_drop, Nat.add_sub_cancel' (by omega)]
    exact hc'
  rw [← take_append_drop (i + 1) cs, flatten_append] at hnodup
  exact (nodup_append.mp hnodup).2.2 b htarget b hbehind rfl

theorem pair_sublist_flatten {i j : Nat} {c c' : List α} (hc : cs[i]? = some c)
    (hc' : cs[j]? = some c') (hlt : j < i) {a b : α} (ha : a ∈ c) (hb : b ∈ c') :
    [b, a].Sublist cs.flatten := by
  have hbefore : b ∈ (cs.take i).flatten := by
    refine mem_flatten.mpr ⟨c', mem_of_getElem? (i := j) ?_, hb⟩
    rw [getElem?_take_of_lt hlt]
    exact hc'
  have hafter : a ∈ (cs.drop i).flatten := by
    refine mem_flatten.mpr ⟨c, mem_of_getElem? (i := 0) ?_, ha⟩
    rw [getElem?_drop]
    exact hc
  rw [← take_append_drop i cs, flatten_append]
  exact (singleton_sublist.mpr hbefore).append (singleton_sublist.mpr hafter)

theorem AreComponents.isDependencyOrder (h : AreComponents succ nodes cs)
    (hfirst : DependenciesFirst succ cs) :
    IsDependencyOrder (fun a b => b ∈ succ a) cs.flatten := by
  refine ⟨h.nodup, fun a ha => ?_, fun a ha b hb hback => ?_⟩
  · obtain ⟨c, hc, hac⟩ := mem_flatten.mp ha
    obtain ⟨before, after, rfl⟩ := append_of_mem hc
    exact ⟨before.flatten, c, after.flatten, by simp, h.mem_iff c hc a hac⟩
  · have hb' : b ∈ cs.flatten := by
      obtain ⟨x, hx, hxa⟩ := (h.mem_flatten_iff a).mp ha
      exact (h.mem_flatten_iff b).mpr ⟨x, hx, hxa.tail hb⟩
    obtain ⟨c, hc, hac⟩ := mem_flatten.mp ha
    obtain ⟨c', hc', hbc⟩ := mem_flatten.mp hb'
    obtain ⟨i, hi⟩ := mem_iff_getElem?.mp hc
    obtain ⟨j, hj⟩ := mem_iff_getElem?.mp hc'
    have hle : j ≤ i := hfirst i j c c' hi hj a hac b hbc hb
    have hne : j ≠ i := by
      rintro rfl
      obtain rfl : c = c' := Option.some.inj (hi.symm.trans hj)
      exact hback ((h.mem_iff c hc a hac b).mp hbc).2
    exact pair_sublist_flatten hi hj (Nat.lt_of_le_of_ne hle hne) hac hbc

theorem exists_ordered_components_of_separates [BEq α] {known : List α}
    (hsep : Table.Separates (· ∈ known)) (hknown : ∀ b, ReachedFrom succ nodes b → b ∈ known) :
    ∃ cs, (∀ fuel, known.length ≤ fuel → (ComponentSearch.run succ fuel nodes).components = cs) ∧
      AreComponents succ nodes cs ∧ DependenciesFirst succ cs := by
  obtain ⟨s, hs, hsearch, hmem⟩ := ComponentSearch.exists_searched hsep hknown
  refine ⟨s.components, fun fuel hfuel => congrArg _ (hs fuel hfuel),
    hsearch.areComponents hmem, ?_⟩
  exact dependenciesFirst_of_closed hsearch.nodup hsearch.closed

theorem exists_ordered_components [BEq α] [LawfulBEq α] {known : List α}
    (hknown : ∀ b, ReachedFrom succ nodes b → b ∈ known) :
    ∃ cs, (∀ fuel, known.length ≤ fuel → (ComponentSearch.run succ fuel nodes).components = cs) ∧
      AreComponents succ nodes cs ∧ DependenciesFirst succ cs :=
  exists_ordered_components_of_separates (fun _ _ _ _ => beq_iff_eq) hknown

/-! ## What is reached through a queue

Reachability takes nodes from a queue and appends the successors of those that are new.  `Reaching`
is what holds at every point.  A step takes a node from the queue and appends arcs that were never
appended before, so the queue is empty before the bound on the steps is met. -/

section Queue

structure Reaching (succ : α → List α) (starts queue seen : List α) : Prop where
  starts_mem : ∀ a ∈ starts, a ∈ seen ∨ a ∈ queue
  closed : ∀ a ∈ seen, ∀ b ∈ succ a, b ∈ seen ∨ b ∈ queue
  reached : ∀ a, a ∈ seen ∨ a ∈ queue → ReachedFrom succ starts a

namespace Reaching

variable {succ : α → List α} {starts queue seen : List α} {a : α}

theorem start (succ : α → List α) (starts : List α) : Reaching succ starts starts [] where
  starts_mem := fun _ ha => .inr ha
  closed := nofun
  reached := fun a ha => ⟨a, ha.resolve_left not_mem_nil, .refl⟩

theorem skip (h : Reaching succ starts (a :: queue) seen) (ha : a ∈ seen) :
    Reaching succ starts queue seen := by
  have hrest : ∀ b, b ∈ seen ∨ b ∈ a :: queue → b ∈ seen ∨ b ∈ queue := by
    rintro b (hb | hb)
    · exact .inl hb
    · rcases mem_cons.mp hb with rfl | hb
      · exact .inl ha
      · exact .inr hb
  exact ⟨fun b hb => hrest b (h.starts_mem b hb), fun b hb c hc => hrest c (h.closed b hb c hc),
    fun b hb => h.reached b (hb.imp_right (mem_cons_of_mem _))⟩

theorem take (h : Reaching succ starts (a :: queue) seen) :
    Reaching succ starts (queue ++ succ a) (seen ++ [a]) := by
  have hrest : ∀ b, b ∈ seen ∨ b ∈ a :: queue → b ∈ seen ++ [a] ∨ b ∈ queue ++ succ a := by
    rintro b (hb | hb)
    · exact .inl (mem_append_left _ hb)
    · rcases mem_cons.mp hb with rfl | hb
      · exact .inl (mem_append_right _ mem_cons_self)
      · exact .inr (mem_append_left _ hb)
  refine ⟨fun b hb => hrest b (h.starts_mem b hb), fun b hb c hc => ?_, fun b hb => ?_⟩
  · rcases mem_append.mp hb with hb | hb
    · exact hrest c (h.closed b hb c hc)
    · obtain rfl := mem_singleton.mp hb
      exact .inr (mem_append_right _ hc)
  · have ha := h.reached a (.inr mem_cons_self)
    rcases hb with hb | hb <;> rcases mem_append.mp hb with hb | hb
    · exact h.reached b (.inl hb)
    · exact mem_singleton.mp hb ▸ ha
    · exact h.reached b (.inr (mem_cons_of_mem _ hb))
    · obtain ⟨x, hx, hxa⟩ := ha
      exact ⟨x, hx, hxa.tail hb⟩

theorem mem_iff (h : Reaching succ starts [] seen) (b : α) :
    b ∈ seen ↔ ReachedFrom succ starts b := by
  constructor
  · exact fun hb => h.reached b (.inl hb)
  · rintro ⟨x, hx, hxb⟩
    induction hxb with
    | refl => exact (h.starts_mem x hx).resolve_right not_mem_nil
    | tail _ hbc ih => exact (h.closed _ ih _ hbc).resolve_right not_mem_nil

end Reaching

variable [BEq α]

def unseenArcs (g : Digraph α) (seen : List α) : Nat :=
  ((g.next.entries.filter fun e => !seen.contains e.1).map fun e => e.2.length).sum

theorem unseenArcs_nil (g : Digraph α) : g.unseenArcs [] = g.arcCount := by
  have hall : g.next.entries.filter (fun e => !([] : List α).contains e.1) = g.next.entries :=
    filter_eq_self.mpr fun _ _ => rfl
  unfold unseenArcs arcCount Table.values
  rw [hall, map_map]
  rfl

theorem length_succ_add_unseenArcs_le {g : Digraph α} {P : α → Prop} (hP : Table.Separates P)
    (hkeys : ∀ k ∈ g.next.keys, P k) {seen : List α} {a : α} (ha : P a)
    (hnew : seen.contains a = false) :
    (g.succ a).length + g.unseenArcs (seen ++ [a]) ≤ g.unseenArcs seen := by
  obtain ⟨nodes, ⟨es⟩⟩ := g
  replace hkeys : ∀ e ∈ es, P e.1 := fun e he => hkeys e.1 (mem_map_of_mem he)
  have hcontains (k : α) : (seen ++ [a]).contains k = (seen.contains k || k == a) := by simp
  have hfewer (es : List (α × List α)) :
      ((es.filter fun e => !(seen ++ [a]).contains e.1).map fun e => e.2.length).sum
        ≤ ((es.filter fun e => !seen.contains e.1).map fun e => e.2.length).sum := by
    refine Sublist.sum_le_sum ((monotone_filter_right es fun e he => ?_).map _)
      fun _ _ => Nat.zero_le _
    rw [hcontains, Bool.not_or, Bool.and_eq_true] at he
    exact he.1
  show (((es.find? fun e => e.1 == a).map Prod.snd).getD []).length
    + ((es.filter fun e => !(seen ++ [a]).contains e.1).map fun e => e.2.length).sum
    ≤ ((es.filter fun e => !seen.contains e.1).map fun e => e.2.length).sum
  -- The first entry of the node is found; all its entries are seen from now on.
  induction es with
  | nil => simp
  | cons e es ih =>
    rw [forall_mem_cons] at hkeys
    by_cases hea : e.1 == a
    · have heq : e.1 = a := (hP _ _ hkeys.1 ha).mp hea
      have hold : seen.contains e.1 = false := heq ▸ hnew
      have htail := hfewer es
      simp only [find?_cons, hea, Option.map_some, Option.getD_some, filter_cons,
        hcontains, hold, Bool.or_true, Bool.not_true, Bool.not_false, if_true, map_cons,
        sum_cons, Bool.false_eq_true, if_false] at htail ⊢
      omega
    · have htail := ih hkeys.2
      simp only [find?_cons, hea, filter_cons, hcontains, Bool.or_false] at htail ⊢
      split
      · simp only [map_cons, sum_cons]
        omega
      · exact htail

section Loop

variable {g : Digraph α} {P : α → Prop} {starts : List α}

theorem mem_reachLoop_iff (hP : Table.Separates P) (hkeys : ∀ k ∈ g.next.keys, P k)
    (hsucc : ∀ b ∈ g.next.values.flatten, P b) (fuel : Nat) {queue seen : List α}
    (h : Reaching g.succ starts queue seen) (hqueue : ∀ a ∈ queue, P a) (hseen : ∀ a ∈ seen, P a)
    (hfuel : queue.length + g.unseenArcs seen < fuel) (b : α) :
    b ∈ g.reachLoop fuel queue seen ↔ ReachedFrom g.succ starts b := by
  induction fuel generalizing queue seen with
  | zero => exact absurd hfuel (Nat.not_lt_zero _)
  | succ fuel ih =>
    cases queue with
    | nil => exact h.mem_iff b
    | cons a queue =>
      rw [forall_mem_cons] at hqueue
      rw [length_cons] at hfuel
      unfold reachLoop
      split
      · rename_i hold
        have ha := (Table.contains_iff_of_separates hP hseen hqueue.1).mp hold
        exact ih (h.skip ha) hqueue.2 hseen (by omega)
      · rename_i hnew
        have hpaid := length_succ_add_unseenArcs_le hP hkeys hqueue.1 (Bool.not_eq_true _ ▸ hnew)
        refine ih h.take ?_ ?_ ?_
        · exact forall_mem_append.mpr
            ⟨hqueue.2, fun b hb => hsucc b (mem_values_of_mem_succ hb)⟩
        · exact forall_mem_append.mpr ⟨hseen, forall_mem_singleton.mpr hqueue.1⟩
        · rw [length_append]
          omega

theorem mem_reachable_iff (hP : Table.Separates P) (hkeys : ∀ k ∈ g.next.keys, P k)
    (hsucc : ∀ b ∈ g.next.values.flatten, P b) (a b : α) :
    b ∈ g.reachable a ↔ Relation.TransGen (fun a b => b ∈ g.succ a) a b := by
  have hstarts : ∀ b ∈ g.succ a, P b := fun b hb => hsucc b (mem_values_of_mem_succ hb)
  have hfuel : (g.succ a).length + g.unseenArcs [] < (g.succ a).length + g.arcCount + 1 := by
    rw [unseenArcs_nil]
    exact Nat.lt_succ_self _
  unfold reachable reachAll
  rw [mem_reachLoop_iff hP hkeys hsucc _ (.start g.succ (g.succ a)) hstarts nofun hfuel,
    Relation.TransGen.head'_iff]
  rfl

end Loop

end Queue

/-! ## Graphs of keys

The keys of stored records are compared by value, so that different keys may count as one.  A search
only compares the nodes that its graph lists. -/

section Keys

variable [BEq α] {g : Digraph α} {shown : α → String}

def mentioned (g : Digraph α) : List α := g.nodes ++ g.next.values.flatten

/-- The nodes that a graph mentions count as one only if they are one. -/
def IsApart (g : Digraph α) : Prop := Table.Separates (· ∈ g.mentioned)

omit [BEq α] in
theorem length_mentioned_le (g : Digraph α) : g.mentioned.length ≤ g.bound := by
  unfold mentioned bound arcCount
  rw [List.length_append, List.length_flatten]
  exact Nat.le_succ _

theorem IsApart.components (hg : g.IsApart) :
    AreComponents g.succ g.nodes g.components ∧ DependenciesFirst g.succ g.components := by
  obtain ⟨cs, hcs, hare⟩ := exists_ordered_components_of_separates hg fun _ => mem_of_reachedFrom
  rw [Digraph.components, componentSearch, hcs g.bound g.length_mentioned_le]
  exact hare

theorem IsApart.mem_mentioned_of_mem_discovered (hg : g.IsApart) :
    ∀ a ∈ g.discovered, a ∈ g.mentioned := by
  obtain ⟨s, hs, hsearch, -⟩ := ComponentSearch.exists_searched hg fun _ => mem_of_reachedFrom
  rw [discovered, componentSearch, hs g.bound g.length_mentioned_le]
  exact hsearch.mem_known

theorem IsApart.mem_mentioned_of_mem_cycles (hg : g.IsApart) (shown : α → String) :
    ∀ c ∈ g.cycles shown, ∀ a ∈ c, a ∈ g.mentioned := by
  obtain ⟨s, hs, hexp, -⟩ := CycleSearch.exists_run shown hg fun _ => mem_of_reachedFrom
  have heq : g.cycles shown = s.found :=
    congrArg CycleSearch.found (hs g.bound g.length_mentioned_le)
  rw [heq]
  exact fun c hc a ha => hexp.mem_known a (hexp.entered c hc a ha)

theorem IsApart.cycles (hg : g.IsApart)
    (hshown : ∀ a ∈ g.mentioned, ∀ b ∈ g.mentioned, shown a = shown b → a = b) :
    (∀ fuel, g.bound ≤ fuel → (CycleSearch.run shown g fuel).found = g.cycles shown) ∧
      AreCycles g.succ g.nodes shown (g.cycles shown) := by
  obtain ⟨s, hs, hare⟩ := exists_cycles hg (fun a b ha hb => hshown a ha b hb)
    fun _ => mem_of_reachedFrom
  have heq : g.cycles shown = s.found :=
    congrArg CycleSearch.found (hs g.bound g.length_mentioned_le)
  rw [heq]
  exact ⟨fun fuel hfuel => congrArg _ (hs fuel (g.length_mentioned_le.trans hfuel)), hare⟩

end Keys

end Branchwise.Digraph
