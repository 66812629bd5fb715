import Branchwise.Graph.Digraph
import Branchwise.Proofs.Data.Table
import Mathlib.Tactic

/-!
# The search for strongly connected components

A search keeps the nodes it has entered but not yet put into a component on a stack, and the nodes
it is visiting on a *path*.  `Searching` says how both and the finished components hang together,
`Visited` what one visit achieves and `Scanning` what holds after some successors of a node.  A
visit that returns the number of its own node has found a component, since no arc leads from what it
put on the stack to what was there before.
-/

namespace Branchwise.Digraph

open List ComponentSearch Table

variable {α : Type}

def Reaches (succ : α → List α) : α → α → Prop := Relation.ReflTransGen fun a b => b ∈ succ a

def ReachedFrom (succ : α → List α) (nodes : List α) (b : α) : Prop :=
  ∃ a ∈ nodes, Reaches succ a b

/-- A list of components is the partition of what some nodes reach into the classes of nodes that
lead to each other. -/
structure AreComponents (succ : α → List α) (nodes : List α) (cs : List (List α)) : Prop where
  mem_flatten_iff : ∀ a, a ∈ cs.flatten ↔ ReachedFrom succ nodes a
  nodup : cs.flatten.Nodup
  nonempty : ∀ c ∈ cs, c ≠ []
  /-- A component has exactly the nodes that lead to each of its nodes and back. -/
  mem_iff : ∀ c ∈ cs, ∀ a ∈ c, ∀ b, b ∈ c ↔ Reaches succ a b ∧ Reaches succ b a

theorem Reaches.of_mem {succ : α → List α} {a b : α} (h : b ∈ succ a) : Reaches succ a b :=
  Relation.ReflTransGen.single h

/-- A fold whose steps do not depend on the fuel, once there is enough, and keep what holds of all
that was folded in before. -/
theorem exists_foldl {σ : Type} {f : Nat → σ → α → σ} {n : Nat} {I : List α → σ → Prop}
    {l : List α} {s : σ} (h : I [] s)
    (hstep : ∀ seen a s, a ∈ l → I seen s →
      ∃ s', (∀ fuel, n ≤ fuel → f fuel s a = s') ∧ I (seen ++ [a]) s') :
    ∃ s', (∀ fuel, n ≤ fuel → l.foldl (f fuel) s = s') ∧ I l s' := by
  induction l using reverseRecOn with
  | nil => exact ⟨s, fun _ _ => rfl, h⟩
  | append_singleton l a ih =>
    obtain ⟨t, ht, hI⟩ := ih fun seen a s ha => hstep seen a s (mem_append_left _ ha)
    obtain ⟨s', hs', hI'⟩ := hstep l a t (by simp) hI
    refine ⟨s', fun fuel hfuel => ?_, hI'⟩
    rw [foldl_append, ht fuel hfuel]
    exact hs' fuel hfuel

namespace ComponentSearch

variable [BEq α] {succ : α → List α} {known path seen new : List α} {s s' : ComponentSearch α}
  {low n : Nat} {a b c : α}

/-! ## Numbers -/

def Entered (s : ComponentSearch α) (a : α) : Prop := a ∈ s.index.keys

def number (s : ComponentSearch α) (a : α) : Nat := (s.index.get? a).getD 0

def Extends (s s' : ComponentSearch α) : Prop := s.index.entries <+: s'.index.entries

/-- The numbers of a state are given to known nodes, which count as one only if they are one. -/
structure Numbered (known : List α) (s : ComponentSearch α) : Prop where
  separates : Separates (· ∈ known)
  apart : s.index.keys.Pairwise fun a b => ¬(a == b)
  mem_known : ∀ a, s.Entered a → a ∈ known
  lt_size : ∀ e ∈ s.index.entries, e.2 < s.index.size

omit [BEq α] in
theorem Extends.entered (h : s.Extends s') (ha : s.Entered a) : s'.Entered a :=
  (h.map Prod.fst).subset ha

namespace Numbered

section

variable (h : Numbered known s)
include h

theorem contains_iff (ha : a ∈ known) : s.index.contains a ↔ s.Entered a :=
  contains_iff_mem_keys h.separates h.mem_known ha

theorem number_eq (hmem : (a, n) ∈ s.index.entries) : s.number a = n := by
  have ha := h.mem_known a (mem_map_of_mem hmem)
  rw [number, get?_of_mem_entries h.apart ((h.separates a a ha ha).mpr rfl) hmem, Option.getD_some]

theorem number_lt (ha : s.Entered a) : s.number a < s.index.size := by
  obtain ⟨e, he, rfl⟩ := mem_map.mp ha
  rw [h.number_eq he]
  exact h.lt_size e he

theorem number_of_extends (h' : Numbered known s') (hext : s.Extends s') (ha : s.Entered a) :
    s'.number a = s.number a := by
  obtain ⟨e, he, rfl⟩ := mem_map.mp ha
  rw [h.number_eq he, h'.number_eq (hext.subset he)]

theorem size_lt (ha : a ∈ known) (hnew : ¬s.Entered a) : s.index.size < known.length := by
  have hnodup : (a :: s.index.keys).Nodup := by
    refine nodup_cons.mpr ⟨hnew, h.apart.imp_of_mem fun hx _ hxy heq => hxy ?_⟩
    rw [← heq]
    exact (h.separates _ _ (h.mem_known _ hx) (h.mem_known _ hx)).mpr rfl
  have hsub : a :: s.index.keys ⊆ known :=
    cons_subset.mpr ⟨ha, fun x hx => h.mem_known x hx⟩
  have hle := (hnodup.subperm hsub).length_le
  rwa [length_cons, Table.keys, length_map] at hle

theorem entries_enter (ha : a ∈ known) (hnew : ¬s.Entered a) :
    (s.enter a).index.entries = s.index.entries ++ [(a, s.index.size)] := by
  have hcontains := Bool.eq_false_iff.mpr fun hc => hnew ((h.contains_iff ha).mp hc)
  exact congrArg entries (put_of_contains_eq_false _ hcontains)

theorem entered_enter (ha : a ∈ known) (hnew : ¬s.Entered a) :
    (s.enter a).Entered b ↔ b = a ∨ s.Entered b := by
  rw [Entered, Table.keys, h.entries_enter ha hnew, map_append, or_comm]
  simp [Entered, Table.keys]

theorem enter (ha : a ∈ known) (hnew : ¬s.Entered a) : Numbered known (s.enter a) := by
  refine ⟨h.separates, pairwise_keys_put h.apart a _, fun b hb => ?_, ?_⟩
  · exact ((h.entered_enter ha hnew).mp hb).elim (· ▸ ha) (h.mem_known b)
  · have hsize : (s.enter a).index.size = s.index.size + 1 := by
      rw [size, h.entries_enter ha hnew, length_append]
      rfl
    rw [h.entries_enter ha hnew, hsize, forall_mem_append, forall_mem_singleton]
    exact ⟨fun e he => Nat.lt_succ_of_lt (h.lt_size e he), Nat.lt_succ_self _⟩

end

end Numbered

/-! ## The invariant of the search -/

/-- How the parts of a state hang together while the visits of some nodes are open. -/
structure Searching (known : List α) (succ : α → List α) (path : List α)
    (s : ComponentSearch α) : Prop extends Numbered known s where
  /-- The stack lists its nodes from the last entered to the first. -/
  sorted : s.stack.Pairwise fun a b => s.number b < s.number a
  entered_iff : ∀ a, s.Entered a ↔ a ∈ s.stack ∨ a ∈ s.components.flatten
  disjoint : ∀ a ∈ s.stack, a ∉ s.components.flatten
  nodup : s.components.flatten.Nodup
  nonempty : ∀ c ∈ s.components, c ≠ []
  mem_iff : ∀ c ∈ s.components, ∀ a ∈ c, ∀ b, b ∈ c ↔ Reaches succ a b ∧ Reaches succ b a
  closed : ∀ cs, cs <+: s.components → ∀ a ∈ cs.flatten, ∀ b ∈ succ a, b ∈ cs.flatten
  path_subset : ∀ a ∈ path, a ∈ s.stack
  /-- A node that has been left has no successor that is still to be entered. -/
  scanned : ∀ a ∈ s.stack, a ∉ path → ∀ b ∈ succ a, s.Entered b
  /-- An open node leads to all that was put on the stack after it. -/
  below : ∀ a ∈ path, ∀ b ∈ s.stack, s.number a ≤ s.number b → Reaches succ a b
  /-- A node of the stack leads to an open one that was entered before it. -/
  above : ∀ b ∈ s.stack, ∃ a ∈ path, s.number a ≤ s.number b ∧ Reaches succ b a

/-- The number that the visit of a node returns: its own, or a smaller one on the stack that it
leads to. -/
def IsLow (succ : α → List α) (a : α) (s : ComponentSearch α) (low : Nat) : Prop :=
  low = s.index.size ∨ low < s.index.size ∧ ∃ c ∈ s.stack, s.number c = low ∧ Reaches succ a c

/-- What the visit of a node achieves, where `low` is the number it returns. -/
structure Visited (known : List α) (succ : α → List α) (path : List α) (a : α)
    (s : ComponentSearch α) (low : Nat) (s' : ComponentSearch α) : Prop where
  searching : Searching known succ path s'
  numbers : s.Extends s'
  entered : s'.Entered a
  reached : ∀ b, s'.Entered b → s.Entered b ∨ Reaches succ a b
  /-- No arc leads from what the visit left on the stack to a smaller number than the one returned.
  -/
  stack : ∃ new, s'.stack = new ++ s.stack ∧
    ∀ b ∈ new, ∀ c ∈ succ b, c ∈ s.stack → low ≤ s.number c
  isLow : IsLow succ a s low

/-- What holds after a node was entered and some of its successors were looked at. -/
structure Scanning (known : List α) (succ : α → List α) (path : List α) (a : α)
    (s : ComponentSearch α) (seen : List α) (low : Nat) (s' : ComponentSearch α) : Prop where
  searching : Searching known succ (a :: path) s'
  numbers : s.Extends s'
  entry : (a, s.index.size) ∈ s'.index.entries
  reached : ∀ b, s'.Entered b → s.Entered b ∨ Reaches succ a b
  stack : ∃ new, s'.stack = new ++ [a] ++ s.stack ∧
    ∀ b ∈ new, ∀ c ∈ succ b, c ∈ s.stack → low ≤ s.number c
  isLow : IsLow succ a s low
  seen_entered : ∀ b ∈ seen, s'.Entered b
  seen_low : ∀ b ∈ seen, b ∈ s.stack → low ≤ s.number b

theorem Searching.start (h : Separates (· ∈ known)) :
    Searching known succ [] (start : ComponentSearch α) where
  separates := h
  apart := Pairwise.nil
  mem_known := nofun
  lt_size := nofun
  sorted := Pairwise.nil
  entered_iff := fun a => by simp [Entered, ComponentSearch.start, empty, Table.keys]
  disjoint := nofun
  nodup := nodup_nil
  nonempty := nofun
  mem_iff := nofun
  closed := by
    intro cs hcs a ha
    rw [prefix_nil.mp hcs] at ha
    exact absurd ha not_mem_nil
  path_subset := nofun
  scanned := nofun
  below := nofun
  above := nofun

section

variable (h : Searching known succ path s)
include h

theorem Searching.nodup_stack : s.stack.Nodup :=
  h.sorted.imp fun hlt heq => by
    subst heq
    exact Nat.lt_irrefl _ hlt

theorem Searching.entered_of_mem (hb : b ∈ s.stack) : s.Entered b :=
  (h.entered_iff b).mpr (.inl hb)

theorem Searching.finished_of_reaches (hb : b ∈ s.components.flatten) (hbc : Reaches succ b c) :
    c ∈ s.components.flatten := by
  induction hbc with
  | refl => exact hb
  | tail _ harc ih => exact h.closed _ prefix_rfl _ ih _ harc

theorem Searching.enter (ha : a ∈ known) (hnew : ¬s.Entered a)
    (hpath : ∀ g ∈ path, Reaches succ g a) : Searching known succ (a :: path) (s.enter a) := by
  have hnumbered := h.toNumbered.enter ha hnew
  have hentries := h.entries_enter ha hnew
  have hext : s.Extends (s.enter a) := ⟨_, hentries.symm⟩
  have hself : (s.enter a).number a = s.index.size := hnumbered.number_eq (by simp [hentries])
  have hnumber : ∀ b ∈ s.stack, (s.enter a).number b = s.number b := fun b hb =>
    h.number_of_extends hnumbered hext (h.entered_of_mem hb)
  have hlt : ∀ b ∈ s.stack, (s.enter a).number b < (s.enter a).number a := by
    intro b hb
    rw [hnumber b hb, hself]
    exact h.number_lt (h.entered_of_mem hb)
  refine
    { hnumbered with
      sorted := ?_, entered_iff := ?_, disjoint := ?_, nodup := h.nodup, nonempty := h.nonempty
      mem_iff := h.mem_iff, closed := h.closed, path_subset := ?_, scanned := ?_, below := ?_
      above := ?_ }
  · refine pairwise_cons.mpr ⟨hlt, h.sorted.imp_of_mem fun hb hc hbc => ?_⟩
    rw [hnumber _ hb, hnumber _ hc]
    exact hbc
  · intro b
    rw [h.entered_enter ha hnew, h.entered_iff b]
    show _ ↔ b ∈ a :: s.stack ∨ _
    rw [mem_cons, or_assoc]
    rfl
  · refine forall_mem_cons.mpr ⟨fun hmem => ?_, h.disjoint⟩
    exact hnew ((h.entered_iff a).mpr (.inr hmem))
  · exact forall_mem_cons.mpr ⟨List.mem_cons_self, fun b hb =>
      mem_cons_of_mem _ (h.path_subset b hb)⟩
  · intro b hb hnot c hc
    rcases mem_cons.mp hb with rfl | hb
    · exact absurd mem_cons_self hnot
    · exact hext.entered (h.scanned b hb (fun hmem => hnot (mem_cons_of_mem _ hmem)) c hc)
  · intro g hg b hb hle
    rcases mem_cons.mp hb with rfl | hold
    · rcases mem_cons.mp hg with rfl | hg
      · exact Relation.ReflTransGen.refl
      · exact hpath g hg
    · rcases mem_cons.mp hg with rfl | hg
      · exact absurd (hlt b hold) (Nat.not_lt.mpr hle)
      · rw [hnumber b hold, hnumber g (h.path_subset g hg)] at hle
        exact h.below g hg b hold hle
  · refine forall_mem_cons.mpr ⟨?_, fun b hb => ?_⟩
    · exact ⟨a, mem_cons_self, le_rfl, Relation.ReflTransGen.refl⟩
    · obtain ⟨g, hg, hle, hreach⟩ := h.above b hb
      refine ⟨g, mem_cons_of_mem _ hg, ?_, hreach⟩
      rw [hnumber b hb, hnumber g (h.path_subset g hg)]
      exact hle

/-! ## Looking at the successors -/

end

theorem Scanning.start (h : Searching known succ path s) (ha : a ∈ known) (hnew : ¬s.Entered a)
    (hpath : ∀ g ∈ path, Reaches succ g a) :
    Scanning known succ path a s [] s.index.size (s.enter a) where
  searching := h.enter ha hnew hpath
  numbers := ⟨_, (h.entries_enter ha hnew).symm⟩
  entry := by simp [h.entries_enter ha hnew]
  reached := by
    intro b hb
    rcases (h.entered_enter ha hnew).mp hb with rfl | hb
    · exact .inr Relation.ReflTransGen.refl
    · exact .inl hb
  stack := ⟨[], rfl, nofun⟩
  isLow := .inl rfl
  seen_entered := nofun
  seen_low := nofun

section

variable (h : Scanning known succ path a s seen low s')
include h

theorem Scanning.number_self : s'.number a = s.index.size :=
  h.searching.number_eq h.entry

theorem Scanning.entered_self : s'.Entered a :=
  mem_map_of_mem (f := Prod.fst) h.entry

theorem Scanning.number_of_mem (hs : Searching known succ path s) (hc : c ∈ s.stack) :
    s'.number c = s.number c :=
  hs.number_of_extends h.searching.toNumbered h.numbers (hs.entered_of_mem hc)

theorem Scanning.mem_stack (hc : c ∈ s.stack) : c ∈ s'.stack := by
  obtain ⟨new, hstack, _⟩ := h.stack
  rw [hstack]
  exact mem_append_right _ hc

theorem Scanning.low_le : low ≤ s.index.size := by
  rcases h.isLow with rfl | ⟨hlt, _⟩
  · exact le_rfl
  · exact Nat.le_of_lt hlt

theorem Scanning.size_le_number (hstack : s'.stack = new ++ [a] ++ s.stack) (hc : c ∈ new ++ [a]) :
    s.index.size ≤ s'.number c := by
  have hsorted := h.searching.sorted
  rw [hstack, pairwise_append, pairwise_append] at hsorted
  rcases mem_append.mp hc with hc | hc
  · exact h.number_self ▸ (hsorted.1.2.2 c hc a mem_cons_self).le
  · rw [mem_singleton.mp hc, h.number_self]

theorem Scanning.mem_of_number_lt (hc : c ∈ s'.stack) (hlt : s'.number c < s.index.size) :
    c ∈ s.stack := by
  obtain ⟨new, hstack, _⟩ := h.stack
  refine (mem_append.mp (hstack ▸ hc)).resolve_left fun hnew => ?_
  exact absurd (h.size_le_number hstack hnew) (Nat.not_le.mpr hlt)

end

theorem Scanning.look {low' : Nat} {s'' : ComponentSearch α} (hs : Searching known succ path s)
    (h : Scanning known succ path a s seen low s') (hsearch : Searching known succ (a :: path) s'')
    (hext : s'.Extends s'') (hreached : ∀ x, s''.Entered x → s'.Entered x ∨ Reaches succ a x)
    (hstack : ∃ new, s''.stack = new ++ s'.stack ∧
      ∀ x ∈ new, ∀ c ∈ succ x, c ∈ s'.stack → low' ≤ s'.number c)
    (hlow : s'.index.size ≤ low' ∨ ∃ c ∈ s'.stack, s'.number c = low' ∧ Reaches succ a c)
    (hentered : s''.Entered b) (hb : b ∈ s'.stack → low' ≤ s'.number b) :
    Scanning known succ path a s (seen ++ [b]) (min low low') s'' := by
  obtain ⟨new, hold, harcs⟩ := h.stack
  obtain ⟨new', hstack, harcs'⟩ := hstack
  refine
    { searching := hsearch, numbers := h.numbers.trans hext, entry := hext.subset h.entry
      reached := fun x hx => (hreached x hx).elim (h.reached x) .inr
      stack := ⟨new' ++ new, ?_, ?_⟩, isLow := ?_, seen_entered := ?_, seen_low := ?_ }
  · rw [hstack, hold, ← append_assoc, ← append_assoc]
  · refine forall_mem_append.mpr ⟨fun x hx c hc hcs => ?_, fun x hx c hc hcs => ?_⟩
    · rw [← h.number_of_mem hs hcs]
      exact (Nat.min_le_right _ _).trans (harcs' x hx c hc (h.mem_stack hcs))
    · exact (Nat.min_le_left _ _).trans (harcs x hx c hc hcs)
  · have hle := h.low_le
    by_cases hlt : low' < low
    · rw [Nat.min_eq_right hlt.le]
      have hsize : s.index.size < s'.index.size := by
        rw [← h.number_self]
        exact h.searching.number_lt h.entered_self
      rcases hlow with hlow | ⟨c, hc, hnum, hreach⟩
      · omega
      · -- The node that is reached was there before the open node, which has a greater number.
        have hold : c ∈ s.stack := h.mem_of_number_lt hc (by omega)
        exact .inr ⟨by omega, c, hold, by rw [← h.number_of_mem hs hold, hnum], hreach⟩
    · rw [Nat.min_eq_left (Nat.not_lt.mp hlt)]
      exact h.isLow
  · exact forall_mem_append.mpr ⟨fun x hx => hext.entered (h.seen_entered x hx),
      forall_mem_singleton.mpr hentered⟩
  · refine forall_mem_append.mpr ⟨fun x hx hold => ?_,
      forall_mem_singleton.mpr fun hold => ?_⟩
    · exact (Nat.min_le_left _ _).trans (h.seen_low x hx hold)
    · rw [← h.number_of_mem hs hold]
      exact (Nat.min_le_right _ _).trans (hb (h.mem_stack hold))

/-! ## Leaving a node -/

theorem Scanning.leave (hs : Searching known succ path s)
    (h : Scanning known succ path a s (succ a) low s') (hlt : low < s.index.size) :
    Visited known succ path a s low s' := by
  obtain ⟨new, hstack, harcs⟩ := h.stack
  have hlow : ∃ c ∈ s.stack, s.number c = low ∧ Reaches succ a c := by
    rcases h.isLow with heq | ⟨_, hex⟩
    · omega
    · exact hex
  refine
    { searching := { h.searching with path_subset := ?_, scanned := ?_, below := ?_, above := ?_ }
      numbers := h.numbers, entered := h.entered_self, reached := h.reached
      stack := ⟨new ++ [a], ?_, ?_⟩, isLow := h.isLow }
  · exact (forall_mem_cons.mp h.searching.path_subset).2
  · intro b hb hnot c hc
    by_cases hba : b = a
    · rw [hba] at hc
      exact h.seen_entered c hc
    · exact h.searching.scanned b hb (by simp [hba, hnot]) c hc
  · exact (forall_mem_cons.mp h.searching.below).2
  · intro b hb
    obtain ⟨g, hg, hle, hreach⟩ := h.searching.above b hb
    rcases mem_cons.mp hg with rfl | hg
    · -- The node that is left leads on to an earlier one, and this one to an open one.
      obtain ⟨c, hc, hnum, hac⟩ := hlow
      obtain ⟨g', hg', hle', hreach'⟩ := hs.above c hc
      refine ⟨g', hg', ?_, (hreach.trans hac).trans hreach'⟩
      have hkeep := h.number_of_mem hs (hs.path_subset g' hg')
      rw [h.number_self] at hle
      omega
    · exact ⟨g, hg, hle, hreach⟩
  · exact hstack
  · exact forall_mem_append.mpr ⟨harcs, forall_mem_singleton.mpr h.seen_low⟩

section Finish

variable (hs : Searching known succ path s)
  (h : Scanning known succ path a s (succ a) s.index.size s')
  (hstack : s'.stack = new ++ [a] ++ s.stack)
  (harcs : ∀ b ∈ new, ∀ c ∈ succ b, c ∈ s.stack → s.index.size ≤ s.number c)

include hs h hstack harcs

/-- If no way to an earlier node was found, an arc from what the visit put on the stack leads to
another such node or to a finished one. -/
theorem Scanning.mem_of_arc (hb : b ∈ new ++ [a]) (hc : c ∈ succ b) :
    c ∈ new ++ [a] ∨ c ∈ s'.components.flatten := by
  have hapart := (nodup_append.mp (hstack ▸ h.searching.nodup_stack)).2.2
  have hentered : s'.Entered c := by
    by_cases hba : b = a
    · exact h.seen_entered c (hba ▸ hc)
    · refine h.searching.scanned b (hstack ▸ mem_append_left _ hb) (fun hmem => ?_) c hc
      rcases mem_cons.mp hmem with heq | hmem
      · exact hba heq
      · exact hapart b hb b (hs.path_subset b hmem) rfl
  rcases (h.searching.entered_iff c).mp hentered with hmem | hmem
  · refine (mem_append.mp (hstack ▸ hmem)).imp_right fun hold => ?_
    have hlt := hs.number_lt (hs.entered_of_mem hold)
    have hle : s.index.size ≤ s.number c := by
      rcases mem_append.mp hb with hb | hb
      · exact harcs b hb c hc hold
      · exact h.seen_low c (mem_singleton.mp hb ▸ hc) hold
    omega
  · exact .inr hmem

theorem Scanning.closed_new (hb : b ∈ new ++ [a]) (hbc : Reaches succ b c) :
    c ∈ new ++ [a] ∨ c ∈ s'.components.flatten := by
  induction hbc with
  | refl => exact .inl hb
  | tail _ harc ih =>
    rcases ih with hx | hx
    · exact h.mem_of_arc hs hstack harcs hx harc
    · exact .inr (h.searching.closed _ prefix_rfl _ hx _ harc)

theorem Scanning.mem_new_iff (hb : b ∈ new ++ [a]) (c : α) :
    c ∈ new ++ [a] ↔ Reaches succ b c ∧ Reaches succ c b := by
  have hapart := (nodup_append.mp (hstack ▸ h.searching.nodup_stack)).2.2
  have hmem : ∀ x ∈ new ++ [a], x ∈ s'.stack := fun x hx => hstack ▸ mem_append_left _ hx
  have hdown : ∀ x ∈ new ++ [a], Reaches succ a x := by
    intro x hx
    refine h.searching.below a mem_cons_self x (hmem x hx) ?_
    rw [h.number_self]
    exact h.size_le_number hstack hx
  have hup : ∀ x ∈ new ++ [a], Reaches succ x a := by
    intro x hx
    obtain ⟨g, hg, _, hreach⟩ := h.searching.above x (hmem x hx)
    rcases mem_cons.mp hg with rfl | hg
    · exact hreach
    · -- An open node other than the last one cannot be reached.
      have hgs := hs.path_subset g hg
      rcases h.closed_new hs hstack harcs hx hreach with hin | hin
      · exact absurd rfl (hapart g hin g hgs)
      · exact absurd hin (h.searching.disjoint g (h.mem_stack hgs))
  constructor
  · intro hc
    exact ⟨(hup b hb).trans (hdown c hc), (hup c hc).trans (hdown b hb)⟩
  · rintro ⟨hbc, hcb⟩
    rcases h.closed_new hs hstack harcs hb hbc with hin | hin
    · exact hin
    · exact absurd (h.searching.finished_of_reaches hin hcb)
        (h.searching.disjoint b (hmem b hb))

omit hs harcs in
theorem Scanning.finish_eq : s'.finish a
    = { s' with stack := s.stack, components := s'.components ++ [new ++ [a]] } := by
  obtain ⟨hnodup, -, -⟩ := nodup_append.mp (hstack ▸ h.searching.nodup_stack)
  have hbeq : ∀ b ∈ new ++ [a], b == a ↔ b = a := fun b hb =>
    h.searching.separates b a
      (h.searching.mem_known b (h.searching.entered_of_mem (hstack ▸ mem_append_left _ hb)))
      (h.searching.mem_known a h.entered_self)
  have hself : a == a := (hbeq a (by simp)).mpr rfl
  have hne : ∀ b ∈ new, (!(b == a)) := by
    intro b hb
    rw [Bool.not_eq_true', ← Bool.not_eq_true, hbeq b (mem_append_left _ hb)]
    exact (nodup_append.mp hnodup).2.2 b hb a mem_cons_self
  rw [append_assoc] at hstack
  rw [finish, hstack, dropWhile_append_of_pos hne, takeWhile_append_of_pos hne,
    singleton_append, dropWhile_cons_of_neg (by simp [hself]),
    takeWhile_cons_of_neg (by simp [hself]), tail_cons, append_nil]

end Finish

theorem Scanning.finish (hs : Searching known succ path s)
    (h : Scanning known succ path a s (succ a) s.index.size s') :
    Visited known succ path a s s.index.size (s'.finish a) := by
  obtain ⟨new, hstack, harcs⟩ := h.stack
  obtain ⟨hnodup, -, hapart⟩ := nodup_append.mp (hstack ▸ h.searching.nodup_stack)
  have hflat : (s'.components ++ [new ++ [a]]).flatten = s'.components.flatten ++ (new ++ [a]) := by
    simp
  have hsearch := h.searching
  rw [h.finish_eq hstack]
  refine
    { searching :=
        { hsearch.toNumbered with
          sorted := ?_, entered_iff := ?_, disjoint := ?_, nodup := ?_, nonempty := ?_
          mem_iff := ?_, closed := ?_, path_subset := hs.path_subset, scanned := ?_, below := ?_
          above := ?_ }
      numbers := h.numbers, entered := h.entered_self, reached := h.reached
      stack := ⟨[], rfl, nofun⟩, isLow := .inl rfl }
  · exact (pairwise_append.mp (hstack ▸ hsearch.sorted)).2.1
  · intro b
    rw [hflat, mem_append]
    refine (hsearch.entered_iff b).trans ?_
    rw [hstack, mem_append]
    tauto
  · intro b hb
    rw [hflat, mem_append]
    rintro (hmem | hmem)
    · exact hsearch.disjoint b (h.mem_stack hb) hmem
    · exact hapart b hmem b hb rfl
  · rw [hflat]
    refine nodup_append.mpr ⟨hsearch.nodup, hnodup, ?_⟩
    rintro b hb c hc rfl
    exact hsearch.disjoint b (hstack ▸ mem_append_left _ hc) hb
  · exact forall_mem_append.mpr ⟨hsearch.nonempty, forall_mem_singleton.mpr (by simp)⟩
  · exact forall_mem_append.mpr ⟨hsearch.mem_iff, forall_mem_singleton.mpr fun b hb =>
      h.mem_new_iff hs hstack harcs hb⟩
  · intro cs hcs b hb c hc
    rcases prefix_concat_iff.mp hcs with rfl | hcs
    · rw [hflat, mem_append] at hb ⊢
      rcases hb with hb | hb
      · exact .inl (hsearch.closed _ prefix_rfl b hb c hc)
      · exact (h.mem_of_arc hs hstack harcs hb hc).symm
    · exact hsearch.closed cs hcs b hb c hc
  · intro b hb hnot c hc
    have hba : b ≠ a := fun e => hapart a (by simp) b hb e.symm
    exact hsearch.scanned b (h.mem_stack hb) (by simp [hba, hnot]) c hc
  · intro g hg b hb hle
    exact hsearch.below g (mem_cons_of_mem _ hg) b (h.mem_stack hb) hle
  · intro b hb
    obtain ⟨g, hg, hle, hreach⟩ := hs.above b hb
    refine ⟨g, hg, ?_, hreach⟩
    show s'.number g ≤ s'.number b
    rw [h.number_of_mem hs hb, h.number_of_mem hs (hs.path_subset g hg)]
    exact hle

/-! ## Visits and runs -/

theorem exists_look (hs : Searching known succ path s)
    (h : Scanning known succ path a s seen low s') (hb : b ∈ succ a) (hbk : b ∈ known)
    (hvisit : ¬s'.Entered b →
      ∃ r : Nat × ComponentSearch α, (∀ fuel, n ≤ fuel → visit succ fuel b s' = r) ∧
        Visited known succ (a :: path) b s' r.1 r.2) :
    ∃ r : Nat × ComponentSearch α, (∀ fuel, n ≤ fuel → look (visit succ fuel) (low, s') b = r) ∧
      Scanning known succ path a s (seen ++ [b]) r.1 r.2 := by
  have hiff := h.searching.contains_iff hbk
  rw [contains_eq_isSome_get?] at hiff
  cases hnum : s'.index.get? b with
  | none =>
    have hnew : ¬s'.Entered b := fun hin => by simp [hnum, ← hiff] at hin
    obtain ⟨r, hr, hv⟩ := hvisit hnew
    refine ⟨(min low r.1, r.2), fun fuel hfuel => ?_, h.look hs hv.searching hv.numbers
      (fun x hx => (hv.reached x hx).imp_right (Reaches.of_mem hb).trans) hv.stack
      (hv.isLow.imp Eq.ge fun ⟨_, c, hc, hnum, hreach⟩ => ⟨c, hc, hnum, hreach.head hb⟩)
      hv.entered fun hold => absurd (h.searching.entered_of_mem hold) hnew⟩
    simp only [look, hnum, hr fuel hfuel]
  | some m =>
    have hentered : s'.Entered b := hiff.mp (by rw [hnum]; rfl)
    have hcontains : s'.stack.contains b ↔ b ∈ s'.stack :=
      contains_iff_of_separates h.searching.separates
        (fun x hx => h.searching.mem_known x (h.searching.entered_of_mem hx)) hbk
    have hkeep : s'.Extends s' := prefix_rfl
    by_cases hmem : b ∈ s'.stack
    · refine ⟨(min low (s'.number b), s'), fun fuel _ => ?_, h.look hs h.searching hkeep
        (fun x hx => .inl hx) ⟨[], rfl, nofun⟩ (.inr ⟨b, hmem, rfl, Reaches.of_mem hb⟩) hentered
        fun _ => le_rfl⟩
      simp [look, hnum, hcontains.mpr hmem, number]
    · have hlow : min low s'.index.size = low := by
        have hle := h.low_le
        have hlt := h.searching.number_lt h.entered_self
        rw [h.number_self] at hlt
        omega
      refine ⟨(low, s'), fun fuel _ => ?_, hlow ▸ h.look hs h.searching hkeep
        (fun x hx => .inl hx) ⟨[], rfl, nofun⟩ (.inl le_rfl) hentered
        fun hold => absurd hold hmem⟩
      simp [look, hnum, mt hcontains.mp hmem]

theorem exists_visit (n : Nat) (hs : Searching known succ path s) (hnew : ¬s.Entered a)
    (hpath : ∀ g ∈ path, Reaches succ g a) (hknown : ∀ b, Reaches succ a b → b ∈ known)
    (hn : known.length ≤ s.index.size + n) :
    ∃ r : Nat × ComponentSearch α, (∀ fuel, n ≤ fuel → visit succ fuel a s = r) ∧
      Visited known succ path a s r.1 r.2 := by
  have ha := hknown a Relation.ReflTransGen.refl
  induction n generalizing path a s with
  | zero => exact absurd (hs.size_lt ha hnew) (Nat.not_lt.mpr hn)
  | succ n ih =>
    obtain ⟨⟨low, t⟩, hr, hscan⟩ := exists_foldl (n := n) (f := fun fuel => look (visit succ fuel))
      (I := fun seen r => Scanning known succ path a s seen r.1 r.2)
      (s := (s.index.size, s.enter a)) (Scanning.start hs ha hnew hpath) fun seen b r hb h => by
        have hreach : ∀ c, Reaches succ b c → c ∈ known := fun c hc => hknown c (hc.head hb)
        refine exists_look hs h hb (hreach b .refl) fun hfresh => ?_
        refine ih h.searching hfresh ?_ hreach ?_ (hreach b .refl)
        · exact forall_mem_cons.mpr ⟨Reaches.of_mem hb, fun g hg => (hpath g hg).tail hb⟩
        · have hlt := h.searching.number_lt h.entered_self
          rw [h.number_self] at hlt
          omega
    by_cases hlow : low = s.index.size
    · subst hlow
      refine ⟨(s.index.size, t.finish a), fun fuel hfuel => ?_, hscan.finish hs⟩
      obtain ⟨fuel, rfl⟩ := Nat.exists_eq_add_of_le' (Nat.lt_of_lt_of_le n.succ_pos hfuel)
      simp only [visit, hr fuel (by omega), if_true]
    · have hless : low < s.index.size := Nat.lt_of_le_of_ne hscan.low_le hlow
      refine ⟨(low, t), fun fuel hfuel => ?_, hscan.leave hs hless⟩
      obtain ⟨fuel, rfl⟩ := Nat.exists_eq_add_of_le' (Nat.lt_of_lt_of_le n.succ_pos hfuel)
      simp only [visit, hr fuel (by omega), if_neg hlow]

theorem Searching.mem_flatten_iff (h : Searching known succ [] s) (a : α) :
    a ∈ s.components.flatten ↔ s.Entered a := by
  rw [h.entered_iff a]
  refine ⟨.inr, ?_⟩
  rintro (hmem | hmem)
  · obtain ⟨g, hg, _⟩ := h.above a hmem
    exact absurd hg not_mem_nil
  · exact hmem

variable {nodes : List α}

theorem exists_searched (hsep : Separates (· ∈ known))
    (hknown : ∀ b, ReachedFrom succ nodes b → b ∈ known) :
    ∃ s : ComponentSearch α, (∀ fuel, known.length ≤ fuel → run succ fuel nodes = s) ∧
      Searching known succ [] s ∧ ∀ b, b ∈ s.components.flatten ↔ ReachedFrom succ nodes b := by
  obtain ⟨s, hs, hsearch, hnodes, hreached⟩ := exists_foldl (n := known.length) (l := nodes)
    (f := fun fuel s a => if s.index.contains a then s else (visit succ fuel a s).2)
    (I := fun seen s => Searching known succ [] s ∧ (∀ a ∈ seen, s.Entered a) ∧
      ∀ b, s.Entered b → ReachedFrom succ seen b)
    (s := start) ⟨.start hsep, nofun, nofun⟩ fun seen a s ha ⟨hsearch, hseen, hreached⟩ => by
      have hreach : ∀ b, Reaches succ a b → b ∈ known := fun b hb => hknown b ⟨a, ha, hb⟩
      have hold : ∀ b, s.Entered b → ReachedFrom succ (seen ++ [a]) b := fun b hb => by
        obtain ⟨c, hc, hcb⟩ := hreached b hb
        exact ⟨c, mem_append_left _ hc, hcb⟩
      by_cases hin : s.Entered a
      · refine ⟨s, fun _ _ => if_pos ((hsearch.contains_iff (hreach a .refl)).mpr hin), hsearch, ?_,
          hold⟩
        exact forall_mem_append.mpr ⟨hseen, forall_mem_singleton.mpr hin⟩
      · obtain ⟨r, hr, hv⟩ := exists_visit known.length hsearch hin nofun hreach
          (Nat.le_add_left _ _)
        refine ⟨r.2, fun fuel hfuel => ?_, hv.searching, ?_, fun b hb => ?_⟩
        · rw [if_neg (mt (hsearch.contains_iff (hreach a .refl)).mp hin), hr fuel hfuel]
        · exact forall_mem_append.mpr ⟨fun b hb => hv.numbers.entered (hseen b hb),
            forall_mem_singleton.mpr hv.entered⟩
        · exact (hv.reached b hb).elim (hold b) fun hb => ⟨a, by simp, hb⟩
  refine ⟨s, hs, hsearch, fun b => ?_⟩
  rw [hsearch.mem_flatten_iff b]
  refine ⟨hreached b, fun ⟨a, ha, hab⟩ => ?_⟩
  have hin := (hsearch.mem_flatten_iff a).mpr (hnodes a ha)
  exact (hsearch.mem_flatten_iff b).mp (hsearch.finished_of_reaches hin hab)

theorem Searching.areComponents (h : Searching known succ [] s)
    (hmem : ∀ b, b ∈ s.components.flatten ↔ ReachedFrom succ nodes b) :
    AreComponents succ nodes s.components :=
  { mem_flatten_iff := hmem, nodup := h.nodup, nonempty := h.nonempty, mem_iff := h.mem_iff }

theorem exists_components [LawfulBEq α] (hknown : ∀ b, ReachedFrom succ nodes b → b ∈ known) :
    ∃ cs, (∀ fuel, known.length ≤ fuel → (run succ fuel nodes).components = cs) ∧
      AreComponents succ nodes cs := by
  obtain ⟨s, hs, hsearch, hmem⟩ := exists_searched (fun _ _ _ _ => beq_iff_eq) hknown
  exact ⟨s.components, fun fuel hfuel => congrArg components (hs fuel hfuel),
    hsearch.areComponents hmem⟩

end ComponentSearch

/-! ## Components of a graph -/

variable [BEq α]

theorem mem_values_of_mem_succ {g : Digraph α} {a b : α} (h : b ∈ g.succ a) :
    b ∈ g.next.values.flatten := by
  unfold succ get? at h
  cases hfind : g.next.entries.find? fun e => e.1 == a with
  | none => simp [hfind] at h
  | some e =>
    have hmem : e.2 ∈ g.next.values := mem_map_of_mem (mem_of_find?_eq_some hfind)
    exact mem_flatten.mpr ⟨e.2, hmem, by simpa [hfind] using h⟩

theorem mem_of_reachedFrom {g : Digraph α} {b : α} (h : ReachedFrom g.succ g.nodes b) :
    b ∈ g.nodes ++ g.next.values.flatten := by
  obtain ⟨a, ha, hab⟩ := h
  rcases Relation.ReflTransGen.cases_tail hab with rfl | ⟨c, _, hc⟩
  · exact mem_append_left _ ha
  · exact mem_append_right _ (mem_values_of_mem_succ hc)

/-- The strongly connected components are found for every successor function that reaches finitely
many nodes from the listed ones: every search with at least as much fuel as there are reached nodes
has the same result, and this is their partition into classes of nodes that lead to each other.  For
a stored graph the bound of the graph is enough fuel. -/
theorem components_partition_reached [LawfulBEq α] :
    (∀ (succ : α → List α) (nodes : List α), {a | ReachedFrom succ nodes a}.Finite →
      ∃ cs, (∀ fuel, {a | ReachedFrom succ nodes a}.ncard ≤ fuel →
          (ComponentSearch.run succ fuel nodes).components = cs) ∧
        AreComponents succ nodes cs) ∧
    ∀ g : Digraph α, AreComponents g.succ g.nodes g.components := by
  constructor
  · intro succ nodes hfinite
    have hknown : ∀ b, ReachedFrom succ nodes b → b ∈ hfinite.toFinset.toList := by
      intro b hb
      simpa using hb
    obtain ⟨cs, hcs, hare⟩ := ComponentSearch.exists_components hknown
    refine ⟨cs, fun fuel hfuel => hcs fuel ?_, hare⟩
    rw [Finset.length_toList, ← Set.ncard_eq_toFinset_card _ hfinite]
    exact hfuel
  · intro g
    have hknown : ∀ b, ReachedFrom g.succ g.nodes b → b ∈ g.nodes ++ g.next.values.flatten :=
      fun b hb => mem_of_reachedFrom hb
    obtain ⟨cs, hcs, hare⟩ := ComponentSearch.exists_components hknown
    have hbound : (g.nodes ++ g.next.values.flatten).length ≤ g.bound := by
      rw [length_append, length_flatten]
      exact Nat.le_succ _
    rw [components, componentSearch, hcs g.bound hbound]
    exact hare

/-- A ring of three numbers given by a successor function, and a stored graph in which a loop stands
between an entry and an exit that is not listed. -/
theorem components_partition_reached_rings :
    AreComponents (fun n : Nat => [(n + 1) % 3]) [0] [[2, 1, 0]] ∧
    (let g : Digraph String :=
      ⟨["main"], ⟨[("main", ["loop", "exit"]), ("loop", ["body"]), ("body", ["loop", "exit"])]⟩⟩
     AreComponents g.succ g.nodes [["exit"], ["body", "loop"], ["main"]]) := by
  constructor
  · have hsubset : {a | ReachedFrom (fun n : Nat => [(n + 1) % 3]) [0] a} ⊆ Finset.range 3 := by
      rintro b ⟨a, ha, hab⟩
      induction hab with
      | refl => simp at ha; simp [ha]
      | tail _ harc _ =>
        simp only [List.mem_singleton] at harc
        simp only [Finset.coe_range, Set.mem_Iio]
        omega
    have hfinite := Set.Finite.subset (Finset.finite_toSet _) hsubset
    have hcard := Set.ncard_le_ncard hsubset (Finset.finite_toSet _)
    rw [Set.ncard_coe_finset, Finset.card_range] at hcard
    obtain ⟨cs, hcs, hare⟩ := (components_partition_reached (α := Nat)).1 _ [0] hfinite
    rw [← hcs 3 hcard] at hare
    exact hare
  · exact (components_partition_reached (α := String)).2 _

end Branchwise.Digraph
