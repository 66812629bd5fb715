import Branchwise.Proofs.Graph.Components
import Mathlib.Data.List.TakeWhile
import Mathlib.Data.String.Basic

/-!
# The search for cycles

A search for cycles follows a path of open nodes.  `Exploring` is what holds at every point: an arc
of a node that was left leads to one that was left before it, or lies in a cycle that was found.  So
a node that leads to itself has a cycle in its component.
-/

namespace Branchwise.Digraph

open List Relation Option Table

variable {α : Type}

/-! ## Cycles -/

/-- Distinct nodes, each with an arc to the next, and the last with an arc to the first. -/
structure IsCycle (succ : α → List α) (c : List α) : Prop where
  ne_nil : c ≠ []
  nodup : c.Nodup
  chain : c.IsChain fun a b => b ∈ succ a
  closes : ∀ a ∈ c.getLast?, ∀ b ∈ c.head?, b ∈ succ a

def StartsLeast (shown : α → String) (c : List α) : Prop :=
  ∀ a ∈ c.head?, ∀ b ∈ c, shown a ≤ shown b

def OnCycle (succ : α → List α) (a : α) : Prop := TransGen (fun a b => b ∈ succ a) a a

variable {succ : α → List α}

theorem IsCycle.turn {l m : List α} (h : IsCycle succ (l ++ m)) : IsCycle succ (m ++ l) := by
  obtain ⟨hl, hm, hjoin⟩ := isChain_append.mp h.chain
  by_cases hl0 : l = []
  · simpa [hl0] using h
  by_cases hm0 : m = []
  · simpa [hm0] using h
  have hcloses := h.closes
  rw [getLast?_append_of_ne_nil _ hm0, head?_append_of_ne_nil _ hl0] at hcloses
  refine ⟨by simp [hl0], nodup_append_comm.mp h.nodup,
    isChain_append.mpr ⟨hm, hl, hcloses⟩, ?_⟩
  rw [getLast?_append_of_ne_nil _ hl0, head?_append_of_ne_nil _ hm0]
  exact hjoin

theorem reaches_of_isChain {a : α} {l : List α} (h : (a :: l).IsChain fun a b => b ∈ succ a) :
    ∀ b ∈ a :: l, Reaches succ a b := by
  induction l generalizing a with
  | nil =>
    intro b hb
    rw [mem_singleton.mp hb]
    exact ReflTransGen.refl
  | cons x l ih =>
    rw [isChain_cons_cons] at h
    intro b hb
    rcases mem_cons.mp hb with rfl | hb
    · exact ReflTransGen.refl
    · exact (Reaches.of_mem h.1).trans (ih h.2 b hb)

theorem IsCycle.reaches {c : List α} (h : IsCycle succ c) {a b : α} (ha : a ∈ c) (hb : b ∈ c) :
    Reaches succ a b := by
  obtain ⟨l, m, rfl⟩ := append_of_mem ha
  refine reaches_of_isChain h.turn.chain b ?_
  simpa [or_comm, or_left_comm] using hb

theorem IsCycle.onCycle {c : List α} (h : IsCycle succ c) {a : α} (ha : a ∈ c) :
    OnCycle succ a := by
  obtain ⟨z, hz⟩ := getLast?_isSome.mpr h.ne_nil |> isSome_iff_exists.mp
  obtain ⟨x, hx⟩ := isSome_head?.mpr h.ne_nil |> isSome_iff_exists.mp
  have harc : x ∈ succ z := h.closes z hz x hx
  have hto : Reaches succ a z := h.reaches ha (mem_of_getLast? hz)
  have hback : Reaches succ x a := h.reaches (mem_of_head? hx) ha
  exact (TransGen.tail' hto harc).trans_left hback

theorem IsCycle.eq_of_isRotated {c c' : List α} (h : IsCycle succ c) (hrot : c ~r c')
    (hhead : c.head? = c'.head?) : c = c' := by
  obtain ⟨n, rfl⟩ := hrot
  have hpos : 0 < c.length := length_pos_iff.mpr h.ne_nil
  have hlt : n % c.length < c.length := Nat.mod_lt _ hpos
  rw [← rotate_mod, head?_rotate hlt, head?_eq_getElem?, getElem?_inj hpos h.nodup] at hhead
  rw [← rotate_mod, ← hhead, rotate_zero]

/-! ## The smallest text -/

theorem foldl_smallest (m : String) (ts : List String) :
    let r := ts.foldl (fun m b => if b < m then b else m) m
    r ∈ m :: ts ∧ ∀ t ∈ m :: ts, r ≤ t := by
  induction ts generalizing m with
  | nil => simp
  | cons t ts ih =>
    obtain ⟨hmem, hle⟩ := ih (if t < m then t else m)
    rw [forall_mem_cons] at hle
    rw [foldl_cons]
    by_cases h : t < m
    · simp only [h] at hmem hle ⊢
      exact ⟨List.mem_cons_of_mem _ hmem, forall_mem_cons.mpr ⟨hle.1.trans h.le,
        forall_mem_cons.mpr hle⟩⟩
    · simp only [h] at hmem hle ⊢
      refine ⟨?_, forall_mem_cons.mpr ⟨hle.1, forall_mem_cons.mpr
        ⟨hle.1.trans (not_lt.mp h), hle.2⟩⟩⟩
      rcases mem_cons.mp hmem with heq | hmem
      · rw [heq]
        exact mem_cons_self
      · exact mem_cons_of_mem _ (mem_cons_of_mem _ hmem)

theorem smallest_spec {ts : List String} (h : ts ≠ []) :
    smallest ts ∈ ts ∧ ∀ t ∈ ts, smallest ts ≤ t := by
  cases ts with
  | nil => exact absurd rfl h
  | cons t ts => exact foldl_smallest t ts

section Canonical

variable {shown : α → String} {c : List α}

theorem exists_canonicalCycle_eq (shown : α → String) (c : List α) :
    ∃ l m, c = l ++ m ∧ canonicalCycle shown c = m ++ l :=
  ⟨_, _, takeWhile_append_dropWhile.symm, rfl⟩

theorem mem_canonicalCycle {a : α} : a ∈ canonicalCycle shown c ↔ a ∈ c := by
  obtain ⟨l, m, rfl, heq⟩ := exists_canonicalCycle_eq shown c
  rw [heq, mem_append, mem_append, or_comm]

theorem IsCycle.canonicalCycle (h : IsCycle succ c) : IsCycle succ (canonicalCycle shown c) := by
  obtain ⟨l, m, rfl, heq⟩ := exists_canonicalCycle_eq shown c
  rw [heq]
  exact h.turn

theorem startsLeast_canonicalCycle (h : c ≠ []) : StartsLeast shown (canonicalCycle shown c) := by
  have htexts : c.map shown ≠ [] := by simpa using h
  obtain ⟨hmem, hle⟩ := smallest_spec htexts
  obtain ⟨x, hx, hpivot⟩ := mem_map.mp hmem
  intro a ha b hb
  -- Some node has the smallest text, so the front that is skipped ends before it.
  have hne : (c.dropWhile fun a => shown a ≠ smallest (c.map shown)) ≠ [] := by
    intro hnil
    rw [dropWhile_eq_nil_iff] at hnil
    simpa [hpivot] using hnil x hx
  have hfirst : shown a = smallest (c.map shown) := by
    obtain ⟨y, ys, hdrop⟩ := exists_cons_of_ne_nil hne
    have hhead : (Digraph.canonicalCycle shown c).head? = some y := by
      unfold Digraph.canonicalCycle
      dsimp only
      rw [hdrop]
      rfl
    obtain rfl : y = a := Option.some.inj (hhead.symm.trans ha)
    have hstop := head_dropWhile_not (fun a => decide (shown a ≠ smallest (c.map shown))) hne
    simp only [hdrop, head_cons] at hstop
    simpa using hstop
  rw [hfirst]
  exact hle _ (mem_map_of_mem (mem_canonicalCycle.mp hb))

end Canonical

/-! ## The invariant of the search -/

namespace CycleSearch

variable [BEq α] {shown : α → String} {known path seen : List α} {s s' t : CycleSearch α}
  {a b : α} {n : Nat}

/-- What holds at every point of a search with a path of open nodes.  All nodes are known ones,
which count as one only if they are one. -/
structure Exploring (known : List α) (succ : α → List α) (shown : α → String) (path : List α)
    (s : CycleSearch α) : Prop where
  separates : Table.Separates (· ∈ known)
  chain : path.IsChain fun a b => b ∈ succ a
  nodup : (path ++ s.done).Nodup
  mem_known : ∀ a ∈ path ++ s.done, a ∈ known
  isCycle : ∀ c ∈ s.found, IsCycle succ c
  least : ∀ c ∈ s.found, StartsLeast shown c
  distinct : s.found.Nodup
  entered : ∀ c ∈ s.found, ∀ a ∈ c, a ∈ path ++ s.done
  /-- An arc of a node that was left leads to one left before it, or lies in a cycle found. -/
  ordered : ∀ a earlier, a :: earlier <:+ s.done → ∀ b ∈ succ a,
    b ∈ earlier ∨ ∃ c ∈ s.found, a ∈ c ∧ b ∈ c

structure Explored (known : List α) (succ : α → List α) (shown : α → String) (path : List α)
    (a : α) (s s' : CycleSearch α) : Prop where
  exploring : Exploring known succ shown path s'
  done : s.done <:+ s'.done
  found : s.found ⊆ s'.found
  left : a ∈ s'.done
  reached : ∀ b ∈ s'.done, b ∈ s.done ∨ Reaches succ a b

/-- What holds after a node was opened and some of its successors were looked at. -/
structure Scanned (known : List α) (succ : α → List α) (shown : α → String) (path : List α)
    (a : α) (s : CycleSearch α) (seen : List α) (s' : CycleSearch α) : Prop where
  exploring : Exploring known succ shown (path ++ [a]) s'
  done : s.done <:+ s'.done
  found : s.found ⊆ s'.found
  reached : ∀ b ∈ s'.done, b ∈ s.done ∨ Reaches succ a b
  seen : ∀ b ∈ seen, b ∈ s'.done ∨ ∃ c ∈ s'.found, a ∈ c ∧ b ∈ c

theorem Exploring.start (h : Table.Separates (· ∈ known)) :
    Exploring known succ shown [] ⟨[], []⟩ where
  separates := h
  chain := IsChain.nil
  nodup := nodup_nil
  mem_known := nofun
  isCycle := nofun
  least := nofun
  distinct := nodup_nil
  entered := nofun
  ordered := by
    intro a earlier h
    exact absurd (suffix_nil.mp h) (cons_ne_nil _ _)

theorem Exploring.length_lt (h : Exploring known succ shown path s) (ha : a ∈ known)
    (hnew : a ∉ path ++ s.done) : (path ++ s.done).length < known.length :=
  ((nodup_cons.mpr ⟨hnew, h.nodup⟩).subperm
    (cons_subset.mpr ⟨ha, h.mem_known⟩)).length_le

theorem Exploring.push (h : Exploring known succ shown path s) (ha : a ∈ known)
    (hnew : a ∉ path ++ s.done) (hlast : ∀ x ∈ path.getLast?, a ∈ succ x) :
    Exploring known succ shown (path ++ [a]) s := by
  have hmem : ∀ x, x ∈ path ++ [a] ++ s.done ↔ x = a ∨ x ∈ path ++ s.done := by
    simp only [mem_append, mem_singleton]
    tauto
  refine { h with chain := ?_, nodup := ?_, mem_known := ?_, entered := ?_ }
  · refine isChain_append.mpr ⟨h.chain, List.IsChain.singleton a, fun x hx y hy => ?_⟩
    obtain rfl : a = y := by simpa using hy
    exact hlast x hx
  · rw [append_assoc, singleton_append, nodup_middle]
    exact nodup_cons.mpr ⟨hnew, h.nodup⟩
  · exact fun x hx => ((hmem x).mp hx).elim (· ▸ ha) (h.mem_known x)
  · exact fun c hc x hx => (hmem x).mpr (.inr (h.entered c hc x hx))

theorem Exploring.isCycle_dropWhile (h : Exploring known succ shown (path ++ [a]) s)
    (hb : b ∈ succ a) (hmem : b ∈ path ++ [a]) :
    let c := (path ++ [a]).dropWhile fun x => !(x == b)
    IsCycle succ c ∧ a ∈ c ∧ b ∈ c ∧ c ⊆ path ++ [a] := by
  intro c
  have hbeq : ∀ x ∈ path ++ [a], x == b ↔ x = b := fun x hx =>
    h.separates x b (h.mem_known x (mem_append_left _ hx))
      (h.mem_known b (mem_append_left _ hmem))
  have hsuffix : c <:+ path ++ [a] := dropWhile_suffix _
  have hne : c ≠ [] := by
    intro hnil
    have hall := dropWhile_eq_nil_iff.mp hnil b hmem
    simp [(hbeq b hmem).mpr rfl] at hall
  obtain ⟨front, hfront⟩ := hsuffix
  have hsub : c ⊆ path ++ [a] := fun x hx => hfront ▸ mem_append_right _ hx
  have hlast : c.getLast? = some a := by
    have h : (front ++ c).getLast? = some a := by rw [hfront, getLast?_concat]
    rwa [getLast?_append_of_ne_nil _ hne] at h
  have hhead : c.head? = some b := by
    have hstop := head_dropWhile_not (fun x => !(x == b)) hne
    rw [Bool.not_eq_false', hbeq _ (hsub (head_mem hne))] at hstop
    rw [head?_eq_some_head hne, hstop]
  refine ⟨⟨hne, ?_, ?_, ?_⟩, mem_of_getLast? hlast, mem_of_head? hhead, hsub⟩
  · exact h.nodup.of_append_left.sublist (dropWhile_sublist _)
  · exact (isChain_append.mp (hfront.symm ▸ h.chain)).2.1
  · intro x hx y hy
    obtain rfl : a = x := Option.some.inj (hlast.symm.trans hx)
    obtain rfl : b = y := Option.some.inj (hhead.symm.trans hy)
    exact hb

section

variable (h : Exploring known succ shown path s)
include h

theorem Exploring.record_cases {cycle : List α} (hsub : cycle ⊆ path) :
    canonicalCycle shown cycle ∈ s.found ∧ s.record shown cycle = s ∨
      canonicalCycle shown cycle ∉ s.found ∧
        s.record shown cycle = { s with found := s.found ++ [canonicalCycle shown cycle] } := by
  have hcontains : s.found.contains (canonicalCycle shown cycle) ↔
      canonicalCycle shown cycle ∈ s.found :=
    contains_iff_of_separates h.separates.list
      (fun c hc x hx => h.mem_known x (h.entered c hc x hx)) fun x hx =>
        h.mem_known x (mem_append_left _ (hsub (mem_canonicalCycle.mp hx)))
  unfold CycleSearch.record
  dsimp only
  split
  · rename_i hold
    exact .inl ⟨hcontains.mp hold, rfl⟩
  · rename_i hnew
    exact .inr ⟨mt hcontains.mpr hnew, rfl⟩

theorem Exploring.record {cycle : List α} (hcycle : IsCycle succ cycle) (hsub : cycle ⊆ path) :
    Exploring known succ shown path (s.record shown cycle) ∧
      (s.record shown cycle).done = s.done ∧ s.found ⊆ (s.record shown cycle).found ∧
      canonicalCycle shown cycle ∈ (s.record shown cycle).found := by
  rcases h.record_cases hsub with ⟨hold, heq⟩ | ⟨hnew, heq⟩ <;> rw [heq]
  · exact ⟨h, rfl, Subset.refl _, hold⟩
  refine ⟨{ h with isCycle := ?_, least := ?_, distinct := ?_, entered := ?_, ordered := ?_ }, rfl,
    subset_append_left _ _, by simp⟩
  · exact forall_mem_append.mpr ⟨h.isCycle, forall_mem_singleton.mpr
      hcycle.canonicalCycle⟩
  · exact forall_mem_append.mpr ⟨h.least, forall_mem_singleton.mpr
      (startsLeast_canonicalCycle hcycle.ne_nil)⟩
  · exact nodup_append.mpr ⟨h.distinct, nodup_singleton _, fun c hc c' hc' heq =>
      hnew (mem_singleton.mp hc' ▸ heq ▸ hc)⟩
  · exact forall_mem_append.mpr ⟨h.entered, forall_mem_singleton.mpr fun x hx =>
      mem_append_left _ (hsub (mem_canonicalCycle.mp hx))⟩
  · exact fun x earlier hx b hb => (h.ordered x earlier hx b hb).imp_right
      fun ⟨c, hc, hmem⟩ => ⟨c, mem_append_left _ hc, hmem⟩

/-! ## Looking at the successors -/

theorem Scanned.start (ha : a ∈ known) (hnew : a ∉ path ++ s.done)
    (hlast : ∀ x ∈ path.getLast?, a ∈ succ x) : Scanned known succ shown path a s [] s where
  exploring := h.push ha hnew hlast
  done := suffix_refl _
  found := Subset.refl _
  reached := fun _ hb => .inl hb
  seen := nofun

end

theorem Scanned.extend (h : Scanned known succ shown path a s seen s')
    (hexploring : Exploring known succ shown (path ++ [a]) t)
    (hdone : s'.done <:+ t.done) (hfound : s'.found ⊆ t.found)
    (hreached : ∀ x ∈ t.done, x ∈ s'.done ∨ Reaches succ a x)
    (hb : b ∈ t.done ∨ ∃ c ∈ t.found, a ∈ c ∧ b ∈ c) :
    Scanned known succ shown path a s (seen ++ [b]) t := by
  refine ⟨hexploring, h.done.trans hdone, fun c hc => hfound (h.found hc), ?_, ?_⟩
  · intro x hx
    rcases hreached x hx with hx | hx
    · exact h.reached x hx
    · exact .inr hx
  · refine forall_mem_append.mpr ⟨fun x hx => ?_, forall_mem_singleton.mpr hb⟩
    exact (h.seen x hx).imp (fun hx => hdone.subset hx) fun ⟨c, hc, hmem⟩ => ⟨c, hfound hc, hmem⟩

theorem Scanned.look_open (h : Scanned known succ shown path a s seen s')
    (hb : b ∈ succ a) (hmem : b ∈ path ++ [a]) :
    Scanned known succ shown path a s (seen ++ [b])
      (s'.record shown ((path ++ [a]).dropWhile fun x => !(x == b))) := by
  obtain ⟨hcycle, hac, hbc, hsub⟩ := h.exploring.isCycle_dropWhile hb hmem
  obtain ⟨hexploring, hdone, hfound, hnew⟩ := h.exploring.record hcycle hsub
  exact h.extend hexploring (hdone ▸ suffix_refl _) hfound (fun x hx => .inl (hdone ▸ hx))
    (.inr ⟨_, hnew, mem_canonicalCycle.mpr hac, mem_canonicalCycle.mpr hbc⟩)

theorem Scanned.leave (h : Scanned known succ shown path a s (succ a) s') :
    Explored known succ shown path a s { s' with done := a :: s'.done } := by
  have hsplit : path ++ [a] ++ s'.done = path ++ a :: s'.done := by simp
  refine
    { exploring :=
        { h.exploring with
          chain := (isChain_append.mp h.exploring.chain).1, nodup := hsplit ▸ h.exploring.nodup
          mem_known := hsplit ▸ h.exploring.mem_known, entered := hsplit ▸ h.exploring.entered
          ordered := ?_ }
      done := h.done.trans (suffix_cons _ _), found := h.found, left := mem_cons_self
      reached := forall_mem_cons.mpr ⟨.inr ReflTransGen.refl, h.reached⟩ }
  intro x earlier hx b hb
  rcases suffix_cons_iff.mp hx with heq | hx
  · obtain ⟨rfl, rfl⟩ := cons.inj heq
    exact h.seen b hb
  · exact h.exploring.ordered x earlier hx b hb

/-! ## Visits and runs -/

def look (shown : α → String) (visit : α → CycleSearch α → CycleSearch α) (path : List α)
    (s : CycleSearch α) (b : α) : CycleSearch α :=
  if path.contains b then s.record shown (path.dropWhile fun x => !(x == b))
  else if s.done.contains b then s
  else visit b s

theorem visitCycles_succ (g : Digraph α) (fuel : Nat) (path : List α) (a : α) (s : CycleSearch α) :
    g.visitCycles shown (fuel + 1) path a s =
      let s' := (g.succ a).foldl
        (look shown (g.visitCycles shown fuel (path ++ [a])) (path ++ [a])) s
      { s' with done := a :: s'.done } := rfl

variable {g : Digraph α}

theorem exists_look (h : Scanned known g.succ shown path a s seen s') (hb : b ∈ g.succ a)
    (hbk : b ∈ known)
    (hvisit : b ∉ path ++ [a] ++ s'.done →
      ∃ t, (∀ fuel, n ≤ fuel → g.visitCycles shown fuel (path ++ [a]) b s' = t) ∧
        Explored known g.succ shown (path ++ [a]) b s' t) :
    ∃ t, (∀ fuel, n ≤ fuel →
        look shown (g.visitCycles shown fuel (path ++ [a])) (path ++ [a]) s' b = t) ∧
      Scanned known g.succ shown path a s (seen ++ [b]) t := by
  obtain ⟨hpath, hleft⟩ := forall_mem_append.mp h.exploring.mem_known
  have hopen_iff := contains_iff_of_separates h.exploring.separates hpath hbk
  have hdone_iff := contains_iff_of_separates h.exploring.separates hleft hbk
  unfold look
  by_cases hopen : b ∈ path ++ [a]
  · exact ⟨_, fun fuel _ => if_pos (hopen_iff.mpr hopen), h.look_open hb hopen⟩
  simp only [if_neg (mt hopen_iff.mp hopen)]
  by_cases hdone : b ∈ s'.done
  · exact ⟨s', fun fuel _ => if_pos (hdone_iff.mpr hdone), h.extend h.exploring
      (suffix_refl _) (Subset.refl _) (fun x hx => .inl hx) (.inl hdone)⟩
  simp only [if_neg (mt hdone_iff.mp hdone)]
  obtain ⟨t, ht, hv⟩ := hvisit fun hmem => (mem_append.mp hmem).elim hopen hdone
  exact ⟨t, ht, h.extend hv.exploring hv.done hv.found
    (fun x hx => (hv.reached x hx).imp_right (Reaches.of_mem hb).trans) (.inl hv.left)⟩

theorem exists_explored (n : Nat) (hs : Exploring known g.succ shown path s)
    (hnew : a ∉ path ++ s.done) (hlast : ∀ x ∈ path.getLast?, a ∈ g.succ x)
    (hknown : ∀ b, Reaches g.succ a b → b ∈ known)
    (hn : known.length ≤ (path ++ s.done).length + n) :
    ∃ s', (∀ fuel, n ≤ fuel → g.visitCycles shown fuel path a s = s') ∧
      Explored known g.succ shown path a s s' := by
  have ha := hknown a ReflTransGen.refl
  induction n generalizing path a s with
  | zero => exact absurd (hs.length_lt ha hnew) (Nat.not_lt.mpr hn)
  | succ n ih =>
    obtain ⟨t, ht, hscan⟩ := exists_foldl (n := n)
      (f := fun fuel => look shown (g.visitCycles shown fuel (path ++ [a])) (path ++ [a]))
      (I := Scanned known g.succ shown path a s) (Scanned.start hs ha hnew hlast)
      fun seen b t hb h => by
        have hreach : ∀ c, Reaches g.succ b c → c ∈ known := fun c hc => hknown c (hc.head hb)
        refine exists_look h hb (hreach b .refl) fun hfresh => ?_
        refine ih h.exploring hfresh (fun x hx => ?_) hreach ?_ (hreach b .refl)
        · obtain rfl : a = x := by simpa using hx
          exact hb
        · have hle := h.done.length_le
          simp only [length_append, length_singleton] at hn ⊢
          omega
    refine ⟨{ t with done := a :: t.done }, fun fuel hfuel => ?_, hscan.leave⟩
    obtain ⟨fuel, rfl⟩ := Nat.exists_eq_add_of_le' (Nat.lt_of_lt_of_le n.succ_pos hfuel)
    rw [visitCycles_succ, ht fuel (by omega)]

/-- The search through all listed nodes with a bound on the length of its path. -/
def run (shown : α → String) (g : Digraph α) (fuel : Nat) : CycleSearch α :=
  g.nodes.foldl (fun s a => if s.done.contains a then s else g.visitCycles shown fuel [] a s)
    ⟨[], []⟩

/-- A search with as much fuel as there are nodes to reach has one result, and has left all listed
nodes and only what they reach. -/
theorem exists_run (shown : α → String) (hsep : Table.Separates (· ∈ known))
    (hknown : ∀ b, ReachedFrom g.succ g.nodes b → b ∈ known) :
    ∃ s, (∀ fuel, known.length ≤ fuel → run shown g fuel = s) ∧
      Exploring known g.succ shown [] s ∧ (∀ a ∈ g.nodes, a ∈ s.done) ∧
      ∀ b ∈ s.done, ReachedFrom g.succ g.nodes b := by
  refine exists_foldl
    (f := fun fuel s a => if s.done.contains a then s else g.visitCycles shown fuel [] a s)
    (I := fun seen s => Exploring known g.succ shown [] s ∧ (∀ a ∈ seen, a ∈ s.done) ∧
      ∀ b ∈ s.done, ReachedFrom g.succ seen b)
    ⟨.start hsep, nofun, nofun⟩ fun seen a s ha ⟨hexploring, hseen, hreached⟩ => ?_
  have hreach : ∀ b, Reaches g.succ a b → b ∈ known := fun b hb => hknown b ⟨a, ha, hb⟩
  have hcontains : s.done.contains a ↔ a ∈ s.done :=
    contains_iff_of_separates hsep hexploring.mem_known (hreach a .refl)
  have hold : ∀ b ∈ s.done, ReachedFrom g.succ (seen ++ [a]) b := fun b hb => by
    obtain ⟨c, hc, hcb⟩ := hreached b hb
    exact ⟨c, mem_append_left _ hc, hcb⟩
  by_cases hin : a ∈ s.done
  · exact ⟨s, fun _ _ => if_pos (hcontains.mpr hin), hexploring,
      forall_mem_append.mpr ⟨hseen, forall_mem_singleton.mpr hin⟩, hold⟩
  · obtain ⟨t, ht, hv⟩ := exists_explored known.length hexploring hin nofun hreach
      (Nat.le_add_left _ _)
    refine ⟨t, fun fuel hfuel => ?_, hv.exploring, ?_, fun b hb => ?_⟩
    · rw [if_neg (mt hcontains.mp hin), ht fuel hfuel]
    · exact forall_mem_append.mpr ⟨fun b hb => hv.done.subset (hseen b hb),
        forall_mem_singleton.mpr hv.left⟩
    · exact (hv.reached b hb).elim (hold b) fun hb => ⟨a, by simp, hb⟩

/-! ## What is found -/

theorem Exploring.mem_done_of_reaches (h : Exploring known succ shown [] s) (ha : a ∈ s.done)
    (hab : Reaches succ a b) : b ∈ s.done := by
  induction hab with
  | refl => exact ha
  | @tail x y _ harc ih =>
    obtain ⟨later, earlier, hsplit⟩ := append_of_mem ih
    rcases h.ordered x earlier ⟨later, hsplit.symm⟩ y harc with hy | ⟨c, hc, -, hy⟩
    · rw [hsplit]
      exact mem_append_right _ (mem_cons_of_mem _ hy)
    · simpa using h.entered c hc y hy

theorem Exploring.exists_cycle (h : Exploring known succ shown [] s) (ha : a ∈ s.done)
    (hcycle : OnCycle succ a) :
    ∃ c ∈ s.found, ∃ b ∈ c, Reaches succ a b ∧ Reaches succ b a := by
  by_contra hnone
  push Not at hnone
  -- Without such a cycle, arcs within the component only lead to nodes that were left before.
  have hbefore : ∀ {x y : α}, TransGen (fun a b => b ∈ succ a) x y →
      ∀ earlier, x :: earlier <:+ s.done → Reaches succ a x → Reaches succ y a → y ∈ earlier := by
    intro x y hxy
    induction hxy using TransGen.head_induction_on with
    | single harc =>
      intro earlier hsuffix hax hya
      rcases h.ordered _ earlier hsuffix _ harc with hy | ⟨c, hc, hxc, -⟩
      · exact hy
      · exact absurd ((Reaches.of_mem harc).trans hya) (hnone c hc _ hxc hax)
    | head harc hzy ih =>
      intro earlier hsuffix hax hya
      have hza := hzy.to_reflTransGen.trans hya
      rcases h.ordered _ earlier hsuffix _ harc with hz | ⟨c, hc, hxc, -⟩
      · obtain ⟨later', earlier', rfl⟩ := append_of_mem hz
        have hsuffix' := (suffix_append later' _).trans ((suffix_cons _ _).trans hsuffix)
        have hy := ih earlier' hsuffix' (hax.tail harc) hya
        exact mem_append_right _ (mem_cons_of_mem _ hy)
      · exact absurd ((Reaches.of_mem harc).trans hza) (hnone c hc _ hxc hax)
  obtain ⟨later, earlier, hsplit⟩ := append_of_mem ha
  have hself : a ∈ earlier := hbefore hcycle earlier ⟨later, hsplit.symm⟩
    ReflTransGen.refl ReflTransGen.refl
  have hnodup : s.done.Nodup := h.nodup
  rw [hsplit] at hnodup
  exact (nodup_cons.mp hnodup.of_append_right).1 hself

end CycleSearch

/-- Some cycles among what some nodes reach: they start at their smallest texts, no two are turned
into each other, and the component of every node that leads to itself has one. -/
structure AreCycles (succ : α → List α) (nodes : List α) (shown : α → String)
    (cs : List (List α)) : Prop where
  isCycle : ∀ c ∈ cs, IsCycle succ c
  least : ∀ c ∈ cs, StartsLeast shown c
  not_isRotated : cs.Pairwise fun c c' => ¬c ~r c'
  reached : ∀ c ∈ cs, ∀ a ∈ c, ReachedFrom succ nodes a
  complete : ∀ a, ReachedFrom succ nodes a → OnCycle succ a →
    ∃ c ∈ cs, ∃ b ∈ c, Reaches succ a b ∧ Reaches succ b a

theorem not_isRotated_of_nodup {shown : α → String} {P : α → Prop}
    (hshown : ∀ a b, P a → P b → shown a = shown b → a = b) {cs : List (List α)}
    (hnodup : cs.Nodup) (hP : ∀ c ∈ cs, ∀ a ∈ c, P a) (hcycle : ∀ c ∈ cs, IsCycle succ c)
    (hleast : ∀ c ∈ cs, StartsLeast shown c) : cs.Pairwise fun c c' => ¬c ~r c' := by
  refine hnodup.imp_of_mem fun {c c'} hc hc' hne hrot => hne ?_
  refine (hcycle c hc).eq_of_isRotated hrot ?_
  obtain ⟨x, hx⟩ := isSome_iff_exists.mp (isSome_head?.mpr (hcycle c hc).ne_nil)
  obtain ⟨y, hy⟩ := isSome_iff_exists.mp (isSome_head?.mpr (hcycle c' hc').ne_nil)
  have hxc := mem_of_head? hx
  have hyc := mem_of_head? hy
  have hxy : shown x ≤ shown y := hleast c hc x hx y (hrot.mem_iff.mpr hyc)
  have hyx : shown y ≤ shown x := hleast c' hc' y hy x (hrot.mem_iff.mp hxc)
  rw [hx, hy, hshown x y (hP c hc x hxc) (hP c' hc' y hyc) (le_antisymm hxy hyx)]

theorem exists_cycles [BEq α] {shown : α → String} {g : Digraph α} {known : List α}
    (hsep : Table.Separates (· ∈ known))
    (hshown : ∀ a b, a ∈ known → b ∈ known → shown a = shown b → a = b)
    (hknown : ∀ b, ReachedFrom g.succ g.nodes b → b ∈ known) :
    ∃ s, (∀ fuel, known.length ≤ fuel → CycleSearch.run shown g fuel = s) ∧
      AreCycles g.succ g.nodes shown s.found := by
  obtain ⟨s, hs, hexp, hnodes, hreached⟩ := CycleSearch.exists_run shown hsep hknown
  refine ⟨s, hs, hexp.isCycle, hexp.least, ?_, fun c hc a ha => hreached a (hexp.entered c hc a ha),
    fun a ⟨x, hx, hxa⟩ hcycle => ?_⟩
  · exact not_isRotated_of_nodup hshown hexp.distinct
      (fun c hc a ha => hexp.mem_known a (hexp.entered c hc a ha)) hexp.isCycle hexp.least
  · exact hexp.exists_cycle (hexp.mem_done_of_reaches (hnodes x hx) hxa) hcycle

end Branchwise.Digraph
