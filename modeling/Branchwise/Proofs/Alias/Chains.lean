import Branchwise.Alias.Table
import Branchwise.Proofs.Domain.Intersection

/-!
# Where chains of aliases end

A walk is kept as the list of the places that it has passed, the last one first.  Since only
finitely many places have a step, a walk that goes on long enough comes back, and then it has no
end.  So the bound on the steps of a chain never cuts it short.
-/

namespace Branchwise

open List Option

section Walks

variable {α κ : Type} {step : α → Option α} {start a b c : α} {passed : List α} {known : List κ}

/-- Where so many steps lead, if there are so many. -/
def stepsTo (step : α → Option α) (start : α) : Nat → Option α
  | 0 => some start
  | n + 1 => (stepsTo step start n).bind step

def Endless (step : α → Option α) (start : α) : Prop := ∀ n, (stepsTo step start n).isSome

/-- The places of a walk, the last one first. -/
structure Walked (step : α → Option α) (start : α) (passed : List α) : Prop where
  getLast?_eq : passed.getLast? = some start
  linked : passed.IsChain fun b a => step a = some b

namespace Walked

theorem singleton (start : α) : Walked step start [start] := ⟨rfl, .singleton start⟩

section

variable (h : Walked step start (a :: passed))
include h

theorem cons (hb : step a = some b) : Walked step start (b :: a :: passed) :=
  ⟨getLast?_cons_cons.trans h.getLast?_eq, .cons_cons hb h.linked⟩

theorem exists_step : ∀ c ∈ passed, ∃ b ∈ a :: passed, step c = some b := by
  intro c hc
  obtain ⟨i, hi, rfl⟩ := mem_iff_getElem.mp hc
  exact ⟨_, getElem_mem _, isChain_iff_getElem.mp h.linked i (by simpa using hi)⟩

/-- Every place but the last has a step.  If their keys differ, there are not more of them than keys
of places with a step. -/
theorem length_le {key : α → κ} (hnodup : (passed.map key).Nodup)
    (hknown : ∀ c, (step c).isSome → key c ∈ known) : passed.length ≤ known.length := by
  rw [← length_map key]
  refine Nodup.length_le_of_subset hnodup fun k hk => ?_
  obtain ⟨c, hc, rfl⟩ := mem_map.mp hk
  obtain ⟨b, -, hb⟩ := h.exists_step c hc
  exact hknown c (by rw [hb]; rfl)

theorem exists_stepsTo : ∃ n, stepsTo step start n = some a := by
  obtain ⟨hlast, hlinked⟩ := h
  induction passed generalizing a with
  | nil => exact ⟨0, hlast.symm⟩
  | cons c passed ih =>
    obtain ⟨hc, hlinked⟩ := isChain_cons_cons.mp hlinked
    obtain ⟨n, hn⟩ := ih (getLast?_cons_cons.symm.trans hlast) hlinked
    exact ⟨n + 1, by rw [stepsTo, hn, bind_some, hc]⟩

theorem not_endless (ha : step a = none) : ¬Endless step start := by
  obtain ⟨n, hn⟩ := h.exists_stepsTo
  intro hendless
  have hnext := hendless (n + 1)
  rw [stepsTo, hn, bind_some, ha] at hnext
  cases hnext

/-- A walk that goes on as it did at a place that it has passed stays among its places. -/
theorem endless (hc : c ∈ passed) (ha : step a = step c) : Endless step start := by
  have hstays (n : Nat) : ∃ b ∈ a :: passed, stepsTo step start n = some b := by
    induction n with
    | zero => exact ⟨start, mem_of_getLast? h.getLast?_eq, rfl⟩
    | succ n ih =>
      obtain ⟨b, hb, hn⟩ := ih
      rw [stepsTo, hn, bind_some]
      rcases mem_cons.mp hb with rfl | hb
      · rw [ha]
        exact h.exists_step c hc
      · exact h.exists_step b hb
  intro n
  obtain ⟨b, -, hn⟩ := hstays n
  rw [hn]
  rfl

end

end Walked

end Walks

namespace AliasTable

variable (t : AliasTable) {start current : String} {passed : List String} {fuel : Nat}

def hop (s : String) : Option String := t.resolve? (.str s)

variable {t}

theorem mem_keys_of_hop {s : String} (h : (t.hop s).isSome) : .str s ∈ t.entries.keys := by
  obtain ⟨e, he⟩ := isSome_iff_exists.mp (isSome_map.symm.trans h)
  obtain ⟨k, hk, hmem⟩ := Table.exists_mem_of_get? he
  exact (Json.isolated_str s k).1.mp hk ▸ mem_map_of_mem hmem

theorem length_le_size (h : Walked t.hop start (current :: passed)) (hnodup : passed.Nodup) :
    passed.length ≤ t.size :=
  (h.length_le (hnodup.map fun _ _ => Json.str.inj) fun _ => mem_keys_of_hop).trans
    (length_map _).le

/-- With as many steps left as places may still come, a walk along a table ends at a spelling
without an entry or comes back to one that it has passed; more steps change nothing. -/
theorem follow_spec (fuel : Nat) (h : Walked t.hop start (current :: passed))
    (hnodup : (current :: passed).Nodup) (hfuel : t.size < fuel + passed.length) :
    ∃ last before, Walked t.hop start (last :: before) ∧
      ((last :: before).Nodup ∧ t.hop last = none ∧
          (∀ more, t.follow (fuel + more) current (current :: passed) =
            .ok ⟨(last :: before).reverse, last, Spelling.base? last⟩) ∨
        last ∈ before ∧ ∀ more, t.follow (fuel + more) current (current :: passed) =
          .error (.aliasCycle (last :: before).reverse)) := by
  induction fuel generalizing current passed with
  | zero =>
    have hle := length_le_size h (nodup_cons.mp hnodup).2
    omega
  | succ fuel ih =>
    simp only [Nat.add_right_comm fuel 1]
    unfold follow
    cases hnext : t.resolve? (.str current) with
    | none => exact ⟨current, passed, h, .inl ⟨hnodup, hnext, fun _ => rfl⟩⟩
    | some next =>
      by_cases hmem : next ∈ current :: passed
      · refine ⟨next, current :: passed, h.cons hnext, .inr ⟨hmem, fun _ => ?_⟩⟩
        exact if_pos (contains_iff_mem.mpr hmem)
      · dsimp only
        simp only [if_neg (mt contains_iff_mem.mp hmem)]
        exact ih (h.cons hnext) (nodup_cons.mpr ⟨hmem, hnodup⟩) (by rw [length_cons]; omega)

/-- Following the aliases of a name fails exactly if their entries never end.  What a failure shows
comes back to one of its spellings, and allowing more steps changes nothing.  Otherwise the chain
repeats no spelling, goes from each to the one that its entry stands for, and ends at the first
without an entry. -/
theorem chain_fails_iff_endless (t : AliasTable) (name : String) :
    ((∃ e, t.chain name = .error e) ↔ Endless t.hop (Spelling.normalize name)) ∧
    (∀ e, t.chain name = .error e →
      ∃ before last, e = .aliasCycle (before ++ [last]) ∧ last ∈ before) ∧
    (∀ more, t.follow (t.size + 1 + more) (Spelling.normalize name) [Spelling.normalize name] =
      t.chain name) ∧
    ∀ c, t.chain name = .ok c →
      c.chain.head? = some (Spelling.normalize name) ∧ c.chain.Nodup ∧
      (c.chain.IsChain fun a b => t.resolve? (.str a) = some b) ∧
      c.chain.getLast? = some c.ultimate ∧ t.contains (.str c.ultimate) = false ∧
      c.hops ≤ t.size ∧ c.base = Spelling.base? c.ultimate := by
  obtain ⟨last, before, h, hends⟩ := follow_spec (t := t) (t.size + 1)
    (.singleton (Spelling.normalize name)) (nodup_singleton _) (by simp)
  rcases hends with ⟨hnodup, hlast, hok⟩ | ⟨hmem, hfails⟩
  · have hchain : t.chain name = _ := hok 0
    refine ⟨iff_of_false (fun ⟨e, he⟩ => nomatch he.symm.trans hchain) (h.not_endless hlast),
      fun e he => (nomatch he.symm.trans hchain), fun more => (hok more).trans hchain.symm,
      fun c hc => ?_⟩
    cases hc.symm.trans hchain
    refine ⟨?_, nodup_reverse.mpr hnodup, isChain_reverse.mpr h.linked, ?_, ?_, ?_, rfl⟩
    · rw [head?_reverse]
      exact h.getLast?_eq
    · rw [getLast?_reverse]
      rfl
    · rw [contains, Table.contains_eq_isSome_get?, ← isSome_map, ← resolve?]
      exact congrArg isSome hlast
    · have hle := length_le_size h (nodup_cons.mp hnodup).2
      simpa [AliasChain.hops] using hle
  · have hchain : t.chain name = _ := hfails 0
    refine ⟨iff_of_true ⟨_, hchain⟩ (h.endless hmem rfl), fun e he => ?_,
      fun more => (hfails more).trans hchain.symm, fun c hc => nomatch hc.symm.trans hchain⟩
    cases he.symm.trans hchain
    exact ⟨before.reverse, last, by rw [reverse_cons], mem_reverse.mpr hmem⟩

end AliasTable

end Branchwise
