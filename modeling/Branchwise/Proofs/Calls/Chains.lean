import Branchwise.Proofs.Calls.Recursion

/-!
# Chains of calls

The search extends a chain by every function that its last one calls and that is not on it yet, and
collects the chains that cannot be extended.  While there are not enough of them it finds exactly
`extensions`, and these are the maximal chains that begin with the chain it was started on.  A chain
repeats no function, so it is never longer than the bound on the depth of the search.
-/

namespace Branchwise.CallGraph

open List Option

variable {g : CallGraph} {root a b : Json} {limit : Int} {n : Nat} {path : List Json}

/-- A chain of calls from a root that repeats no function and keeps to a limit. -/
structure IsChainFrom (g : CallGraph) (root : Json) (limit : Int) (path : List Json) : Prop where
  head : path.head? = some root
  calls : path.IsChain g.Calls
  nodup : path.Nodup
  within : limit < 0 ∨ path.length ≤ limit + 1

/-- A chain that has as many calls as the limit allows, or whose last function calls no other. -/
structure IsMaximalChain (g : CallGraph) (root : Json) (limit : Int) (path : List Json) : Prop
    extends g.IsChainFrom root limit path where
  maximal : path.length = limit + 1 ∨ ∀ a ∈ path.getLast?, ∀ b, g.Calls a b → b ∈ path

def nextOf (g : CallGraph) (limit : Scalar) (path : List Json) : List Json :=
  if atLimit limit (path.length - 1) then []
  else (g.callees (path.getLastD .null)).filter fun c => !path.contains c

def extensions (g : CallGraph) (limit : Scalar) : Nat → List Json → List (List Json)
  | 0, path => [path]
  | fuel + 1, path =>
    match g.nextOf limit path with
    | [] => [path]
    | next => next.flatMap fun c => g.extensions limit fuel (path ++ [c])

/-! ## Collecting -/

/-- Chains were collected after others: all the given ones, unless there are enough. -/
structure Collects (enough : Int) (acc : Nat × List (List Json)) (chains : List (List Json))
    (r : Nat × List (List Json)) : Prop where
  le : acc.1 ≤ r.1
  counted : acc.1 = acc.2.length → r.1 = r.2.length
  all : r.1 < enough → r.2 = chains.reverse ++ acc.2

theorem Collects.trans {enough : Int} {acc r r' : Nat × List (List Json)}
    {chains chains' : List (List Json)} (h : Collects enough acc chains r)
    (h' : Collects enough r chains' r') : Collects enough acc (chains ++ chains') r' where
  le := h.le.trans h'.le
  counted := h'.counted ∘ h.counted
  all := fun hlt => by
    have hle := h'.le
    rw [h'.all hlt, h.all (by omega), reverse_append, append_assoc]

theorem collects_chainsFrom (g : CallGraph) (limit : Scalar) (enough : Int) (fuel : Nat)
    (path : List Json) (acc : Nat × List (List Json)) :
    Collects enough acc (g.extensions limit fuel path)
      (g.chainsFrom limit (.int enough) fuel path acc) := by
  have hone (path : List Json) (acc : Nat × List (List Json)) :
      Collects enough acc [path] (acc.1 + 1, path :: acc.2) :=
    ⟨Nat.le_succ _, congrArg Nat.succ, fun _ => rfl⟩
  induction fuel generalizing path acc with
  | zero => exact hone path acc
  | succ fuel ih =>
    -- The chains of one callee are collected after those of the callees before it.
    have hfold (cs : List Json) (acc : Nat × List (List Json)) :
        Collects enough acc (cs.flatMap fun c => g.extensions limit fuel (path ++ [c]))
          (cs.foldl (fun r c => g.chainsFrom limit (.int enough) fuel (path ++ [c]) r) acc) := by
      induction cs generalizing acc with
      | nil => exact ⟨le_rfl, id, fun _ => rfl⟩
      | cons c cs ihc => exact (ih (path ++ [c]) acc).trans (ihc _)
    have hlt : (Scalar.int acc.1).lt (.int enough) = decide ((acc.1 : Int) < enough) :=
      Scalar.lt_of_int? rfl rfl
    obtain ⟨n, found⟩ := acc
    rw [chainsFrom, extensions, hlt]
    by_cases hfull : (n : Int) < enough
    · rw [decide_eq_true hfull]
      show Collects enough _ _ (match g.nextOf limit path with
        | [] => (n + 1, path :: found)
        | next => next.foldl (fun acc c =>
            g.chainsFrom limit (.int enough) fuel (path ++ [c]) acc) (n, found))
      cases g.nextOf limit path with
      | nil => exact hone path _
      | cons c cs => exact hfold (c :: cs) _
    · rw [decide_eq_false hfull]
      exact ⟨le_rfl, id, fun hlt => absurd hlt hfull⟩

/-! ## Extending a chain -/

theorem atLimit_eq_false_iff : atLimit (.int limit) n = false ↔ limit < 0 ∨ n < limit := by
  have hzero : (Scalar.int 0).le (.int limit) = decide (0 ≤ limit) := Scalar.le_of_int? rfl rfl
  have hdepth : (Scalar.int limit).le (.int n) = decide (limit ≤ n) := Scalar.le_of_int? rfl rfl
  rw [atLimit, hzero, hdepth, Bool.and_eq_false_iff, decide_eq_false_iff_not,
    decide_eq_false_iff_not, not_le, not_le]

theorem IsLinked.nodup_callees (hg : g.IsLinked) (a : Json) : (g.callees a).Nodup :=
  Table.nodup_eraseDups hg.separates fun b hb => by
    obtain ⟨e, he, rfl⟩ := mem_map.mp hb
    exact hg.callee_mem e (mem_filter.mp he).1

theorem length_le_size {ks : List Json} (hks : ks.Nodup) (hsub : ks ⊆ g.nodes.keys) :
    ks.length ≤ g.nodes.size := by
  have hle := (hks.subperm hsub).length_le
  rwa [Table.keys, length_map] at hle

/-- A chain goes on, within the limit, with what its last function calls and what is not on it. -/
theorem IsLinked.mem_nextOf (hg : g.IsLinked) {front : List Json}
    (hsub : front ++ [a] ⊆ g.nodes.keys) : b ∈ g.nextOf (.int limit) (front ++ [a]) ↔
      (limit < 0 ∨ front.length < limit) ∧ g.Calls a b ∧ b ∉ front ++ [a] := by
  rw [nextOf, getLastD_concat, length_append, length_singleton, Nat.add_sub_cancel,
    ← atLimit_eq_false_iff, ← hg.mem_callees_iff (hsub (by simp))]
  split
  · simp [*]
  · rename_i hbelow
    rw [mem_filter, Bool.not_eq_eq_eq_not, Bool.not_true, Bool.eq_false_iff,
      and_iff_right (Bool.eq_false_iff.mpr hbelow)]
    refine and_congr_right fun hb => not_congr ?_
    exact Table.contains_iff_of_separates hg.separates hsub (hg.callees_subset a hb)

namespace IsChainFrom

theorem subset_keys (h : g.IsChainFrom root limit path) (hg : g.IsLinked)
    (hroot : root ∈ g.nodes.keys) : path ⊆ g.nodes.keys := by
  obtain ⟨t, rfl⟩ := head?_eq_some_iff.mp h.head
  have hchain := h.calls
  clear h
  induction t generalizing root with
  | nil => exact fun x hx => mem_singleton.mp hx ▸ hroot
  | cons a t ih =>
    obtain ⟨hcall, hchain⟩ := isChain_cons_cons.mp hchain
    exact cons_subset.mpr ⟨hroot, ih (hg.callee_mem_of_calls hcall) hchain⟩

theorem exists_concat (h : g.IsChainFrom root limit path) : ∃ front a, path = front ++ [a] := by
  obtain ⟨t, rfl⟩ := head?_eq_some_iff.mp h.head
  exact ⟨_, _, (dropLast_append_getLast (cons_ne_nil root t)).symm⟩

theorem of_append {q : List Json} (h : g.IsChainFrom root limit (path ++ q)) (hne : path ≠ []) :
    g.IsChainFrom root limit path where
  head := by rw [← h.head, head?_append_of_ne_nil _ hne]
  calls := h.calls.left_of_append
  nodup := h.nodup.of_append_left
  within := by
    have hwithin := h.within
    rw [length_append] at hwithin
    omega

section

variable (h : g.IsChainFrom root limit path)
include h

theorem mem_nextOf_iff (hg : g.IsLinked) (hroot : root ∈ g.nodes.keys) :
    b ∈ g.nextOf (.int limit) path ↔ g.IsChainFrom root limit (path ++ [b]) := by
  have hsub := h.subset_keys hg hroot
  obtain ⟨front, a, rfl⟩ := h.exists_concat
  rw [hg.mem_nextOf hsub]
  constructor
  · rintro ⟨hbelow, hcall, hout⟩
    refine ⟨?_, ?_, ?_, ?_⟩
    · rw [head?_append_of_ne_nil _ (by simp), h.head]
    · refine isChain_append.mpr ⟨h.calls, .singleton b, fun x hx y hy => ?_⟩
      rw [getLast?_concat, mem_some_iff] at hx
      rw [head?_singleton, mem_some_iff] at hy
      exact hx ▸ hy ▸ hcall
    · exact nodup_append.mpr ⟨h.nodup, nodup_singleton b, fun x hx y hy hxy =>
        hout (mem_singleton.mp hy ▸ hxy ▸ hx)⟩
    · simp only [length_append, length_singleton]
      omega
  · intro h'
    have hwithin := h'.within
    simp only [length_append, length_singleton] at hwithin
    refine ⟨by omega, ?_, fun hb => ?_⟩
    · exact (isChain_append.mp h'.calls).2.2 a (by simp) b (by simp)
    · exact (nodup_append.mp h'.nodup).2.2 b hb b (by simp) rfl

theorem isMaximalChain_iff (hg : g.IsLinked) (hroot : root ∈ g.nodes.keys) :
    g.IsMaximalChain root limit path ↔ g.nextOf (.int limit) path = [] := by
  have hsub := h.subset_keys hg hroot
  have hwithin := h.within
  obtain ⟨front, a, rfl⟩ := h.exists_concat
  simp only [eq_nil_iff_forall_not_mem, hg.mem_nextOf hsub]
  rw [length_append, length_singleton] at hwithin
  constructor
  · rintro ⟨-, hlength | hall⟩ b ⟨hbelow, hcall, hout⟩
    · rw [length_append, length_singleton] at hlength
      omega
    · exact hout (hall a (by simp) b hcall)
  · intro hnone
    refine ⟨h, or_iff_not_imp_left.mpr fun hlength x hx b hcall => ?_⟩
    rw [getLast?_concat, mem_some_iff] at hx
    rw [length_append, length_singleton] at hlength
    by_contra hout
    exact hnone b ⟨by omega, hx ▸ hcall, hout⟩

theorem extensions_spec (hg : g.IsLinked) (hroot : root ∈ g.nodes.keys) (fuel : Nat)
    (hfuel : g.nodes.size < fuel + path.length) :
    (g.extensions (.int limit) fuel path).Nodup ∧ ∀ p, p ∈ g.extensions (.int limit) fuel path ↔
      path <+: p ∧ g.IsMaximalChain root limit p := by
  -- The chain grows as the fuel shrinks, and it is never longer than there are functions.
  induction fuel generalizing path with
  | zero =>
    have hle := length_le_size h.nodup (h.subset_keys hg hroot)
    omega
  | succ fuel ih =>
    have hne : path ≠ [] := by
      rintro rfl
      cases h.head
    have hmaximal := h.isMaximalChain_iff hg hroot
    have hnext {b : Json} := h.mem_nextOf_iff hg hroot (b := b)
    -- A chain that goes on after the given one begins with an extension of it.
    have hcases {p : List Json} (hp : path <+: p ∧ g.IsMaximalChain root limit p) :
        p = path ∨ ∃ b ∈ g.nextOf (.int limit) path, path ++ [b] <+: p := by
      obtain ⟨⟨_ | ⟨b, t⟩, rfl⟩, hp⟩ := hp
      · exact .inl (append_nil path)
      · rw [append_cons] at hp ⊢
        exact .inr ⟨b, hnext.mpr (hp.toIsChainFrom.of_append (by simp)), prefix_append _ _⟩
    unfold extensions
    cases hnexts : g.nextOf (.int limit) path with
    | nil =>
      refine ⟨nodup_singleton path, fun p => mem_singleton.trans ⟨?_, fun hp => ?_⟩⟩
      · rintro rfl
        exact ⟨prefix_refl p, hmaximal.mpr hnexts⟩
      · rcases hcases hp with hp | ⟨b, hb, -⟩
        · exact hp
        · rw [hnexts] at hb
          cases hb
    | cons c cs =>
      dsimp only
      rw [← hnexts]
      have hlength (b : Json) : g.nodes.size < fuel + (path ++ [b]).length := by
        rw [length_append, length_singleton]
        omega
      have ih {b : Json} (hb : b ∈ g.nextOf (.int limit) path) := ih (hnext.mp hb) (hlength b)
      constructor
      · refine nodup_flatMap.mpr ⟨fun b hb => (ih hb).1, ?_⟩
        have hnodup : (g.nextOf (.int limit) path).Nodup := by
          unfold nextOf
          split
          · exact nodup_nil
          · exact (hg.nodup_callees _).filter _
        refine hnodup.imp_of_mem fun {b b'} hb hb' hbb' p hp hp' => hbb' ?_
        -- A chain that begins with two extensions by one function has the same function in both.
        have hpre := ((ih hb).2 p).mp hp
        have hpre' := ((ih hb').2 p).mp hp'
        have heq := (prefix_of_prefix_length_le hpre.1 hpre'.1 (by simp)).eq_of_length (by simp)
        simpa using heq
      · intro p
        rw [mem_flatMap]
        constructor
        · rintro ⟨b, hb, hp⟩
          obtain ⟨hpre, hp⟩ := ((ih hb).2 p).mp hp
          exact ⟨(prefix_append path [b]).trans hpre, hp⟩
        · intro hp
          rcases hcases hp with rfl | ⟨b, hb, hpre⟩
          · rw [hmaximal.mp hp.2] at hnexts
            cases hnexts
          · exact ⟨b, hb, ((ih hb).2 p).mpr ⟨hpre, hp.2⟩⟩

end

end IsChainFrom

/-- If fewer chains are listed than were asked for, they are all maximal chains of calls from the
root, each once. -/
theorem chains_exhaustive (hg : g.IsLinked) (hroot : root ∈ g.nodes.keys) (limit enough : Int) :
    ∃ paths, g.chains root (.int limit) (.int enough) = .ok paths ∧
      (paths.length < enough → paths.Nodup ∧ ∀ p, p ∈ paths ↔ g.IsMaximalChain root limit p) := by
  obtain ⟨start, hstart⟩ := hg.exists_node hroot
  have hpositive : (Scalar.int 0).lt (.int enough) = decide (0 < enough) :=
    Scalar.lt_of_int? rfl rfl
  by_cases hwanted : 0 < enough
  · have hchain : g.IsChainFrom root limit [root] :=
      ⟨rfl, .singleton root, nodup_singleton root, by rw [length_singleton]; omega⟩
    obtain ⟨hnodup, hmem⟩ := hchain.extensions_spec hg hroot (g.nodes.size + 1) (by omega)
    have hcollects := collects_chainsFrom g (.int limit) enough (g.nodes.size + 1) [root] (0, [])
    refine ⟨(g.chainsFrom (.int limit) (.int enough) (g.nodes.size + 1) [root] (0, [])).2.reverse,
      ?_, fun hfew => ?_⟩
    · rw [chains, hstart]
      show (if !(Scalar.int 0).lt (.int enough) then _ else _) = _
      rw [hpositive, decide_eq_true hwanted]
      rfl
    · rw [length_reverse, ← hcollects.counted rfl] at hfew
      rw [hcollects.all hfew, append_nil, reverse_reverse]
      refine ⟨hnodup, fun p => (hmem p).trans (and_iff_right_of_imp fun hp => ?_)⟩
      obtain ⟨t, rfl⟩ := head?_eq_some_iff.mp hp.head
      exact ⟨t, rfl⟩
  · refine ⟨[], ?_, fun hfew => absurd hfew hwanted⟩
    rw [chains, hstart]
    show (if !(Scalar.int 0).lt (.int enough) then _ else _) = _
    rw [hpositive, decide_eq_false hwanted]
    rfl

/-- The second of two functions that call each other also calls itself, and no chain goes around. -/
theorem chains_exhaustive_parity :
    parityGraph.IsLinked ∧ caller.name ∈ parityGraph.nodes.keys ∧
      ∀ p, parityGraph.IsMaximalChain caller.name (-1) p ↔
        p = [caller.name, even.name, odd.name] := by
  have hroot : caller.name ∈ parityGraph.nodes.keys := by simp [parityGraph, parityNode, Table.keys]
  obtain ⟨paths, hpaths, hall⟩ := chains_exhaustive isLinked_parityGraph hroot (-1) 2
  obtain rfl : [[caller.name, even.name, odd.name]] = paths :=
    Except.ok.inj (.trans (by rfl) hpaths)
  exact ⟨isLinked_parityGraph, hroot, fun p => ((hall (by decide)).2 p).symm.trans mem_singleton⟩

end Branchwise.CallGraph
