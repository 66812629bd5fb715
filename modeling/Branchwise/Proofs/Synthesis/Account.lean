import Branchwise.Proofs.Data.Outcome
import Branchwise.Proofs.Flow.Enumeration
import Branchwise.Proofs.Number.Order
import Branchwise.Synthesis.Run

/-!
# What a synthesis run has to show for itself

`Accounts` says how the collections of a report hang together, whatever a solver answers: an attempt
settles its branch, a settled branch stays settled, and a branch that was left unknown leaves that
list once another attempt covers it.
-/

namespace Branchwise

open List Attempt BranchAnalysis Draft

namespace SynthesisReport

/-- A number is that of a branch to be covered. -/
def Among (reachable : List Branch) (i : Nat) : Prop := ∃ b ∈ reachable, b.id = i

/-! ## Covering branches -/

/-- No branch is listed twice as covered or as unknown, and none as both; what is settled is in step
with what is infeasible or left unknown. -/
structure Tidy (r : SynthesisReport) : Prop where
  covered_nodup : r.covered.Nodup
  unknown_nodup : r.unknown.Nodup
  disjoint : ∀ i ∈ r.covered, i ∉ r.unknown
  apart : ∀ i ∈ r.infeasible, i ∉ r.unknown
  mem_settled : ∀ i, i ∈ r.settled ↔ i ∈ r.infeasible ∨ i ∈ r.unknown

theorem isSettled_iff_mem {r : SynthesisReport} {i : Nat} :
    r.isSettled i ↔ i ∈ r.covered ∨ i ∈ r.settled := by
  simp [isSettled]

theorem Tidy.isSettled_iff {r : SynthesisReport} (h : r.Tidy) {i : Nat} :
    r.isSettled i ↔ i ∈ r.covered ∨ i ∈ r.infeasible ∨ i ∈ r.unknown := by
  rw [isSettled_iff_mem, h.mem_settled]

/-- Some branches have been covered, and nothing else has changed. -/
structure Covers (ids : List Nat) (r r' : SynthesisReport) : Prop where
  mem_covered : ∀ i, i ∈ r'.covered ↔ i ∈ r.covered ∨ i ∈ ids
  tidy : r.Tidy → r'.Tidy ∧ ∀ i, i ∈ r'.unknown ↔ i ∈ r.unknown ∧ i ∉ ids
  rest_eq : ∃ cs us ss, r' = { r with covered := cs, unknown := us, settled := ss }

theorem covers_cover (r : SynthesisReport) (id : Nat) : Covers [id] r (r.cover id) := by
  unfold cover
  by_cases hid : id ∈ r.covered
  · rw [if_pos (contains_iff_mem.mpr hid)]
    refine ⟨fun i => ?_, fun h => ⟨h, fun i => ?_⟩, _, _, _, rfl⟩
    · rw [mem_singleton]
      exact ⟨.inl, fun hi => hi.elim (fun h => h) fun heq => heq ▸ hid⟩
    · rw [mem_singleton]
      exact ⟨fun hi => ⟨hi, fun heq => h.disjoint id hid (heq ▸ hi)⟩, And.left⟩
  · rw [if_neg fun hc => hid (contains_iff_mem.mp hc)]
    have hnodup (h : r.Tidy) : (r.covered ++ [id]).Nodup :=
      nodup_append.mpr ⟨h.covered_nodup, nodup_singleton _, fun i hi j hj heq =>
        hid (mem_singleton.mp hj ▸ heq ▸ hi)⟩
    split
    · next hunknown =>
      rw [contains_iff_mem] at hunknown
      refine ⟨fun i => mem_append, fun h => ?_, _, _, _, rfl⟩
      have hmem (i : Nat) : i ∈ r.unknown.erase id ↔ i ≠ id ∧ i ∈ r.unknown :=
        h.unknown_nodup.mem_erase_iff
      refine ⟨⟨hnodup h, h.unknown_nodup.erase id, fun i hi hu => ?_, fun i hi hu => ?_,
        fun i => ?_⟩, fun i => ?_⟩
      · obtain ⟨hne, hu⟩ := (hmem i).mp hu
        rcases mem_append.mp hi with hi | hi
        · exact h.disjoint i hi hu
        · exact hne (mem_singleton.mp hi)
      · exact h.apart i hi ((hmem i).mp hu).2
      · -- An unknown branch is not infeasible, so that only one list says why it was settled.
        have hinfeasible : i ∈ r.infeasible → i ≠ id := fun hi heq => h.apart i hi (heq ▸ hunknown)
        simp only [mem_filter, decide_eq_true_eq, h.mem_settled, hmem]
        grind
      · rw [hmem, mem_singleton, and_comm]
    · next hknown =>
      rw [contains_iff_mem] at hknown
      refine ⟨fun i => mem_append, fun h => ⟨⟨hnodup h, h.unknown_nodup, fun i hi hu => ?_,
        h.apart, h.mem_settled⟩, fun i => ?_⟩, _, _, _, rfl⟩
      · rcases mem_append.mp hi with hi | hi
        · exact h.disjoint i hi hu
        · exact hknown (mem_singleton.mp hi ▸ hu)
      · rw [mem_singleton]
        exact ⟨fun hi => ⟨hi, fun heq => hknown (heq ▸ hi)⟩, And.left⟩

theorem covers_foldl (r : SynthesisReport) (ids : List Nat) : Covers ids r (ids.foldl cover r) := by
  induction ids generalizing r with
  | nil => exact ⟨fun i => by simp, fun h => ⟨h, fun i => by simp⟩, _, _, _, rfl⟩
  | cons id ids ih =>
    have h1 := covers_cover r id
    have h2 := ih (r.cover id)
    refine ⟨fun i => ?_, fun h => ?_, ?_⟩
    · rw [foldl_cons, h2.mem_covered, h1.mem_covered, mem_singleton, mem_cons,
        or_assoc]
    · obtain ⟨htidy, hunknown⟩ := h1.tidy h
      refine ⟨(h2.tidy htidy).1, fun i => ?_⟩
      rw [foldl_cons, (h2.tidy htidy).2, hunknown, mem_singleton, mem_cons, not_or, and_assoc]
    · obtain ⟨cs1, us1, ss1, heq1⟩ := h1.rest_eq
      obtain ⟨cs2, us2, ss2, heq2⟩ := h2.rest_eq
      exact ⟨cs2, us2, ss2, heq2.trans (by rw [heq1])⟩

def taken (b : Branch) (attempt : Attempt) : List Nat :=
  (attempt.path.map FlowPath.branches).getD [b.id]

theorem exists_record_of_sat (r : SynthesisReport) (reachable : List Branch) (b : Branch)
    {attempt : Attempt} (h : attempt.result.status = .sat) :
    ∃ ids cs us ss, (∀ i, i ∈ ids ↔ i ∈ taken b attempt ∧ Among reachable i) ∧
      Covers ids r { r with covered := cs, unknown := us, settled := ss } ∧
      r.record reachable b attempt = { r with
        solverCalls := r.solverCalls + attempt.calls, attempted := r.attempted ++ [b.id]
        covered := cs, unknown := us, settled := ss
        cases := r.cases ++ [⟨r.function, b.id, attempt.result.assignment.getD [], cs.length,
          r.total, attempt.path.map FlowPath.id, taken b attempt⟩] } := by
  have hids : ∀ i, i ∈ (taken b attempt).filter (fun id => reachable.any fun b => b.id = id) ↔
      i ∈ taken b attempt ∧ Among reachable i := fun i => by simp [Among]
  have hc := covers_foldl { r with
    solverCalls := r.solverCalls + attempt.calls, attempted := r.attempted ++ [b.id] }
    ((taken b attempt).filter fun id => reachable.any fun b => b.id = id)
  obtain ⟨cs, us, ss, heq⟩ := hc.rest_eq
  rw [heq] at hc
  refine ⟨_, cs, us, ss, hids, ⟨hc.mem_covered, fun htidy => ?_, cs, us, ss, rfl⟩, ?_⟩
  · obtain ⟨htidy, hunknown⟩ := hc.tidy { htidy with }
    exact ⟨{ htidy with }, hunknown⟩
  · unfold taken at heq
    simp only [SynthesisReport.record, h, heq, taken]

/-! ## The account -/

/-- A report accounts for a run: branches are attempted in order, and each of them is settled. -/
structure Accounts (reachable : List Branch) (budget : Option Nat) (r : SynthesisReport) :
    Prop where
  total_eq : r.total = reachable.length
  attempted_lt : r.attempted.Pairwise (· < ·)
  attempted_among : ∀ i ∈ r.attempted, Among reachable i
  attempted_settled : ∀ i ∈ r.attempted, r.isSettled i
  below_settled : ∀ i ∈ r.attempted, ∀ b ∈ reachable, b.id < i → r.isSettled b.id
  infeasible_attempted : ∀ i ∈ r.infeasible, i ∈ r.attempted
  unknown_attempted : ∀ i ∈ r.unknown, i ∈ r.attempted
  tidy : r.Tidy
  calls_le : ∀ n, budget = some n → r.solverCalls ≤ n
  counts_lt : (r.cases.map TestCase.coveredCount).Pairwise (· < ·)
  counts_le : ∀ c ∈ r.cases, c.coveredCount ≤ r.covered.length
  last_count : ∀ c, r.cases.getLast? = some c → c.coveredCount = r.covered.length
  covered_iff : ∀ i, i ∈ r.covered ↔ Among reachable i ∧ ∃ c ∈ r.cases, i ∈ c.covers

variable {reachable : List Branch} {budget : Option Nat} {r : SynthesisReport}

theorem tidy_start (function : Json) (target : Scalar) (total : Nat) :
    (start function target total).Tidy where
  covered_nodup := nodup_nil
  unknown_nodup := nodup_nil
  disjoint := nofun
  apart := nofun
  mem_settled := fun _ => ⟨nofun, fun h => h.elim nofun nofun⟩

theorem accounts_start (function : Json) (target : Scalar) (reachable : List Branch)
    (budget : Option Nat) :
    Accounts reachable budget (.start function target reachable.length) where
  total_eq := rfl
  attempted_lt := Pairwise.nil
  attempted_among := nofun
  attempted_settled := nofun
  below_settled := nofun
  infeasible_attempted := nofun
  unknown_attempted := nofun
  tidy := tidy_start function target reachable.length
  calls_le := fun _ _ => Nat.zero_le _
  counts_lt := Pairwise.nil
  counts_le := nofun
  last_count := nofun
  covered_iff := fun _ => ⟨nofun,
    fun ⟨_, _, hc, _⟩ => absurd hc not_mem_nil⟩

theorem Accounts.length_attempted_le (h : Accounts reachable budget r) :
    r.attempted.length ≤ r.total := by
  have hsub : r.attempted ⊆ reachable.map Branch.id := fun i hi => by
    obtain ⟨b, hb, rfl⟩ := h.attempted_among i hi
    exact mem_map_of_mem hb
  rw [h.total_eq, ← length_map Branch.id]
  exact Nodup.length_le_of_subset (h.attempted_lt.imp Nat.ne_of_lt) hsub

theorem Accounts.lt_of_next? (h : Accounts reachable budget r) {b : Branch}
    (hb : r.next? reachable = some b) : ∀ i ∈ r.attempted, i < b.id := by
  intro i hi
  have hmem := mem_of_find?_eq_some hb
  have hopen : r.isSettled b.id = false := by simpa using find?_some hb
  by_contra hle
  rcases Nat.lt_or_eq_of_le (Nat.not_lt.mp hle) with hlt | heq
  · rw [h.below_settled i hi b hmem hlt] at hopen
    cases hopen
  · rw [heq, h.attempted_settled i hi] at hopen
    cases hopen

theorem isSettled_of_lt_next? (hsorted : reachable.Pairwise fun b b' => b.id < b'.id)
    {b b' : Branch}
    (hb : r.next? reachable = some b) (hb' : b' ∈ reachable) (hlt : b'.id < b.id) :
    r.isSettled b'.id := by
  obtain ⟨_, before, after, rfl, hbefore⟩ := find?_eq_some_iff_append.mp hb
  rcases mem_append.mp hb' with hmem | hmem
  · simpa using hbefore b' hmem
  · rcases mem_cons.mp hmem with rfl | hmem
    · exact absurd hlt (Nat.lt_irrefl _)
    · have hafter := (pairwise_cons.mp (pairwise_append.mp hsorted).2.1).1 b' hmem
      exact absurd hlt (Nat.lt_asymm hafter)

/-- What entering an attempt does, apart from the covered branches of a satisfied one: the branch is
attempted, settled, and nothing that was settled is opened again. -/
structure Enters (b : Branch) (calls : Nat) (r r' : SynthesisReport) : Prop where
  total_eq : r'.total = r.total
  attempted_eq : r'.attempted = r.attempted ++ [b.id]
  calls_eq : r'.solverCalls = r.solverCalls + calls
  settled : r'.isSettled b.id
  settled_of : ∀ i, r.isSettled i → r'.isSettled i
  mem_infeasible : ∀ i ∈ r'.infeasible, i ∈ r.infeasible ∨ i = b.id
  mem_unknown : ∀ i ∈ r'.unknown, i ∈ r.unknown ∨ i = b.id
  tidy : r'.Tidy

theorem Accounts.of_enters (h : Accounts reachable budget r)
    (hsorted : reachable.Pairwise fun b b' => b.id < b'.id) {b : Branch} {calls : Nat}
    {r' : SynthesisReport} (hb : r.next? reachable = some b) (he : Enters b calls r r')
    (hcalls : ∀ n, budget = some n → r.solverCalls + calls ≤ n)
    (hlt : (r'.cases.map TestCase.coveredCount).Pairwise (· < ·))
    (hle : ∀ c ∈ r'.cases, c.coveredCount ≤ r'.covered.length)
    (hlast : ∀ c, r'.cases.getLast? = some c → c.coveredCount = r'.covered.length)
    (hcovered : ∀ i, i ∈ r'.covered ↔ Among reachable i ∧ ∃ c ∈ r'.cases, i ∈ c.covers) :
    Accounts reachable budget r' ∧ r'.attempted = r.attempted ++ [b.id] := by
  have hmem := mem_of_find?_eq_some hb
  have hatt : ∀ i, i ∈ r'.attempted ↔ i ∈ r.attempted ∨ i = b.id := fun i => by
    rw [he.attempted_eq, mem_append, mem_singleton]
  refine ⟨
    { total_eq := he.total_eq.trans h.total_eq, attempted_lt := ?_, attempted_among := ?_
      attempted_settled := ?_, below_settled := ?_, infeasible_attempted := ?_
      unknown_attempted := ?_, tidy := he.tidy, calls_le := ?_, counts_lt := hlt, counts_le := hle
      last_count := hlast, covered_iff := hcovered }, he.attempted_eq⟩
  · rw [he.attempted_eq, pairwise_append]
    refine ⟨h.attempted_lt, pairwise_singleton _ _, fun i hi j hj => ?_⟩
    rw [mem_singleton.mp hj]
    exact h.lt_of_next? hb i hi
  · intro i hi
    rcases (hatt i).mp hi with hi | rfl
    · exact h.attempted_among i hi
    · exact ⟨b, hmem, rfl⟩
  · intro i hi
    rcases (hatt i).mp hi with hi | rfl
    · exact he.settled_of i (h.attempted_settled i hi)
    · exact he.settled
  · intro i hi b' hb' hlt
    rcases (hatt i).mp hi with hi | rfl
    · exact he.settled_of _ (h.below_settled i hi b' hb' hlt)
    · exact he.settled_of _ (isSettled_of_lt_next? hsorted hb hb' hlt)
  · intro i hi
    exact (hatt i).mpr ((he.mem_infeasible i hi).imp (h.infeasible_attempted i) id)
  · intro i hi
    exact (hatt i).mpr ((he.mem_unknown i hi).imp (h.unknown_attempted i) id)
  · intro n hn
    rw [he.calls_eq]
    exact hcalls n hn

section Record

variable {b : Branch} {calls : Nat}

theorem enters_infeasible (h : r.Tidy) (hb : r.isSettled b.id ≠ true) (calls : Nat) :
    Enters b calls r { r with
      solverCalls := r.solverCalls + calls, attempted := r.attempted ++ [b.id]
      settled := r.settled ++ [b.id], infeasible := r.infeasible ++ [b.id] } where
  total_eq := rfl
  attempted_eq := rfl
  calls_eq := rfl
  settled := isSettled_iff_mem.mpr (.inr mem_concat_self)
  settled_of := fun _ hi =>
    isSettled_iff_mem.mpr ((isSettled_iff_mem.mp hi).imp_right (mem_append_left _))
  mem_infeasible := fun _ hi => (mem_append.mp hi).imp_right mem_singleton.mp
  mem_unknown := fun _ hi => .inl hi
  tidy := by
    refine { h with apart := fun i hi hu => ?_, mem_settled := fun i => ?_ }
    · rcases mem_append.mp hi with hi | hi
      · exact h.apart i hi hu
      · exact hb (h.isSettled_iff.mpr (.inr (.inr (mem_singleton.mp hi ▸ hu))))
    · simp only [mem_append, h.mem_settled, or_right_comm]

theorem enters_unknown (h : r.Tidy) (hb : r.isSettled b.id ≠ true) (calls : Nat) :
    Enters b calls r { r with
      solverCalls := r.solverCalls + calls, attempted := r.attempted ++ [b.id]
      settled := r.settled ++ [b.id], unknown := r.unknown ++ [b.id] } where
  total_eq := rfl
  attempted_eq := rfl
  calls_eq := rfl
  settled := isSettled_iff_mem.mpr (.inr mem_concat_self)
  settled_of := fun _ hi =>
    isSettled_iff_mem.mpr ((isSettled_iff_mem.mp hi).imp_right (mem_append_left _))
  mem_infeasible := fun _ hi => .inl hi
  mem_unknown := fun _ hi => (mem_append.mp hi).imp_right mem_singleton.mp
  tidy := by
    refine ⟨h.covered_nodup, ?_, fun i hi hu => ?_, fun i hi hu => ?_, fun i => ?_⟩
    · refine nodup_append.mpr ⟨h.unknown_nodup, nodup_singleton _, ?_⟩
      rintro i hi j hj rfl
      exact hb (h.isSettled_iff.mpr (.inr (.inr (mem_singleton.mp hj ▸ hi))))
    · rcases mem_append.mp hu with hu | hu
      · exact h.disjoint i hi hu
      · exact hb (h.isSettled_iff.mpr (.inl (mem_singleton.mp hu ▸ hi)))
    · rcases mem_append.mp hu with hu | hu
      · exact h.apart i hi hu
      · exact hb (h.isSettled_iff.mpr (.inr (.inl (mem_singleton.mp hu ▸ hi))))
    · simp only [mem_append, h.mem_settled, or_assoc]

theorem enters_covered (h : r.Tidy) {ids cs us ss : List Nat} {cases : List TestCase}
    (hc : Covers ids r { r with covered := cs, unknown := us, settled := ss }) (hb : b.id ∈ ids)
    (calls : Nat) :
    Enters b calls r { r with
      solverCalls := r.solverCalls + calls, attempted := r.attempted ++ [b.id]
      covered := cs, unknown := us, settled := ss, cases := cases } where
  total_eq := rfl
  attempted_eq := rfl
  calls_eq := rfl
  settled := (hc.tidy h).1.isSettled_iff.mpr (.inl ((hc.mem_covered _).mpr (.inr hb)))
  settled_of := by
    intro i hi
    refine (hc.tidy h).1.isSettled_iff.mpr ?_
    rcases h.isSettled_iff.mp hi with hi | hi | hi
    · exact .inl ((hc.mem_covered i).mpr (.inl hi))
    · exact .inr (.inl hi)
    · by_cases hin : i ∈ ids
      · exact .inl ((hc.mem_covered i).mpr (.inr hin))
      · exact .inr (.inr (((hc.tidy h).2 i).mpr ⟨hi, hin⟩))
  mem_infeasible := fun _ hi => .inl hi
  mem_unknown := fun i hi => .inl (((hc.tidy h).2 i).mp hi).1
  tidy := { (hc.tidy h).1 with }

theorem Accounts.concat_case (h : Accounts reachable budget r) {ids cs : List Nat} {c : TestCase}
    (hcount : c.coveredCount = cs.length) (hmore : r.covered.length < cs.length)
    (hcs : ∀ i, i ∈ cs ↔ i ∈ r.covered ∨ i ∈ ids)
    (hids : ∀ i, i ∈ ids ↔ i ∈ c.covers ∧ Among reachable i) :
    ((r.cases ++ [c]).map TestCase.coveredCount).Pairwise (· < ·) ∧
      (∀ c' ∈ r.cases ++ [c], c'.coveredCount ≤ cs.length) ∧
      (∀ c', (r.cases ++ [c]).getLast? = some c' → c'.coveredCount = cs.length) ∧
      ∀ i, i ∈ cs ↔ Among reachable i ∧ ∃ c' ∈ r.cases ++ [c], i ∈ c'.covers := by
  refine ⟨?_, fun c' hc' => ?_, fun c' hlast => ?_, fun i => ?_⟩
  · rw [map_append, pairwise_append]
    refine ⟨h.counts_lt, pairwise_singleton _ _, fun m hm n hn => ?_⟩
    obtain ⟨c', hc', rfl⟩ := mem_map.mp hm
    rw [mem_singleton.mp hn, hcount]
    exact (h.counts_le c' hc').trans_lt hmore
  · rcases mem_append.mp hc' with hc' | hc'
    · exact (h.counts_le c' hc').trans hmore.le
    · rw [mem_singleton.mp hc', hcount]
  · rw [getLast?_concat] at hlast
    rw [← Option.some.inj hlast, hcount]
  · rw [hcs, h.covered_iff, hids]
    constructor
    · rintro (⟨hi, c', hc', hcov⟩ | ⟨hcov, hi⟩)
      · exact ⟨hi, c', mem_append_left _ hc', hcov⟩
      · exact ⟨hi, c, mem_concat_self, hcov⟩
    · rintro ⟨hi, c', hc', hcov⟩
      rcases mem_append.mp hc' with hc' | hc'
      · exact .inl ⟨hi, c', hc', hcov⟩
      · exact .inr ⟨List.mem_singleton.mp hc' ▸ hcov, hi⟩

theorem Accounts.record (h : Accounts reachable budget r)
    (hsorted : reachable.Pairwise fun b b' => b.id < b'.id) (attempt : Attempt)
    (hb : r.next? reachable = some b)
    (hcalls : ∀ n, budget = some n → r.solverCalls + attempt.calls ≤ n)
    (hpath : ∀ p, attempt.path = some p → b.id ∈ p.branches) :
    Accounts reachable budget (r.record reachable b attempt) ∧
      (r.record reachable b attempt).attempted = r.attempted ++ [b.id] := by
  have hopen : r.isSettled b.id ≠ true := by simpa using find?_some hb
  cases hstatus : attempt.result.status with
  | sat =>
    obtain ⟨ids, cs, us, ss, hids, hc, heq⟩ := exists_record_of_sat r reachable b hstatus
    have htaken : b.id ∈ taken b attempt := by
      unfold taken
      cases hp : attempt.path with
      | none => exact mem_cons_self
      | some p => exact hpath p hp
    have hin : b.id ∈ ids := (hids _).mpr ⟨htaken, b, mem_of_find?_eq_some hb, rfl⟩
    -- The branch itself is new among the covered ones, so their number grows.
    have hmore : r.covered.length < cs.length := by
      have hfresh : b.id ∉ r.covered := fun hmem => hopen (h.tidy.isSettled_iff.mpr (.inl hmem))
      refine (nodup_cons.mpr ⟨hfresh, h.tidy.covered_nodup⟩).length_le_of_subset ?_
      refine cons_subset.mpr ⟨(hc.mem_covered _).mpr (.inr hin), fun i hi => ?_⟩
      exact (hc.mem_covered i).mpr (.inl hi)
    rw [heq]
    obtain ⟨hlt, hle, hlast, hcovered⟩ := h.concat_case (c := ⟨r.function, b.id,
      attempt.result.assignment.getD [], cs.length, r.total, attempt.path.map FlowPath.id,
      taken b attempt⟩) rfl hmore hc.mem_covered hids
    exact h.of_enters hsorted hb (enters_covered h.tidy hc hin _) hcalls hlt hle hlast hcovered
  | unsat =>
    rw [SynthesisReport.record, hstatus]
    exact h.of_enters hsorted hb (enters_infeasible h.tidy hopen attempt.calls) hcalls h.counts_lt
      h.counts_le h.last_count h.covered_iff
  | unknown =>
    rw [SynthesisReport.record, hstatus]
    exact h.of_enters hsorted hb (enters_unknown h.tidy hopen attempt.calls) hcalls h.counts_lt
      h.counts_le h.last_count h.covered_iff

end Record

/-- Why a run is over: it was cancelled, its target is reached, nothing is open, or no call is left.
-/
inductive Ended {σ : Type} (solver : Solver σ) (reachable : List Branch) (budget : Option Nat)
    (r : SynthesisReport) (s : σ) : Prop
  | cancelled : solver.isCancelled s → r.cancelled → Ended solver reachable budget r s
  | reached : r.total = 0 ∨ r.targetReached → Ended solver reachable budget r s
  | settled : (∀ b ∈ reachable, r.isSettled b.id) → Ended solver reachable budget r s
  | exhausted (n : Nat) : budget = some n → n ≤ r.solverCalls → r.budgetExhausted →
      Ended solver reachable budget r s

end SynthesisReport

/-! ## How a run goes -/

def Sweep.calls : Sweep → Nat
  | .ended attempt => attempt.calls
  | .unsolved calls _ => calls

namespace Solver

open SynthesisReport

variable {σ : Type}

/-- A solver that never fails. -/
def Answers (solver : Solver σ) : Prop :=
  ∀ condition s, ∃ result s', solver.ask condition s = .ok (result, s')

/-- A number of calls does not exceed a limit. -/
def Within (limit : Option Nat) (calls : Nat) : Prop := ∀ n, limit = some n → calls ≤ n

/-- The sweep over some conditions: it ends at the first that is satisfied, or for want of calls. -/
inductive Swept (solver : Solver σ) (limit : Option Nat) :
    List (String × Option FlowPath) → Nat → String → σ → Sweep → σ → Prop
  | done {calls reason s} : Swept solver limit [] calls reason s (.unsolved calls reason) s
  | cut {x rest calls reason s} (hused : usedUp limit calls) :
      Swept solver limit (x :: rest) calls reason s (.ended (.outOfCalls calls)) s
  | sat {x rest calls reason s s' result} (hleft : ¬usedUp limit calls)
      (hask : solver.ask x.1 s = .ok (result, s')) (hstatus : result.status = .sat) :
      Swept solver limit (x :: rest) calls reason s (.ended ⟨result, x.2, calls + 1⟩) s'
  | next {x rest calls reason reason' s s₁ s' result sweep}
      (hleft : ¬usedUp limit calls) (hask : solver.ask x.1 s = .ok (result, s₁))
      (hstatus : result.status = .unsat ∧ reason' = reason ∨
        result.status = .unknown ∧ reason' = result.reason)
      (hrest : Swept solver limit rest (calls + 1) reason' s₁ sweep s') :
      Swept solver limit (x :: rest) calls reason s sweep s'

/-- How an attempt goes: it ends with its conditions, or the branch is settled after them. -/
inductive Tried (solver : Solver σ) (a : BranchAnalysis) (b : Branch) (limit : Option Nat) (s : σ) :
    Attempt → σ → Prop
  | ended {attempt s'}
      (hswept : Swept solver limit (a.candidates b) 0 "" s (.ended attempt) s') :
      Tried solver a b limit s attempt s'
  | settled {calls reason s₁ attempt s'}
      (hswept : Swept solver limit (a.candidates b) 0 "" s (.unsolved calls reason) s₁)
      (hsettle : solver.settle limit b (!(a.pathsThrough (.nat b.id)).isEmpty) calls reason s₁
        = .ok (attempt, s')) :
      Tried solver a b limit s attempt s'

/-- The loop stops, with the reasons in the order in which it looks for them. -/
inductive Stops (solver : Solver σ) (a : BranchAnalysis) (budget : Option Nat) (r : SynthesisReport)
    (s : σ) : SynthesisReport → Prop
  | cancelled (h : solver.isCancelled s) :
      Stops solver a budget r s { r with cancelled := true }
  | reached (hlive : ¬solver.isCancelled s)
      (h : (decide (r.total = 0) || r.targetReached)) : Stops solver a budget r s r
  | settled (hlive : ¬solver.isCancelled s)
      (hshort : ¬(decide (r.total = 0) || r.targetReached))
      (h : r.next? a.reachableBranches = none) : Stops solver a budget r s r
  | exhausted {b} (hlive : ¬solver.isCancelled s)
      (hshort : ¬(decide (r.total = 0) || r.targetReached))
      (hnext : r.next? a.reachableBranches = some b)
      (h : usedUp budget r.solverCalls) :
      Stops solver a budget r s { r with budgetExhausted := true }

/-- The loop has no reason to stop, and goes on with a branch. -/
structure GoesOn (solver : Solver σ) (a : BranchAnalysis) (budget : Option Nat)
    (r : SynthesisReport) (s : σ) (b : Branch) : Prop where
  live : ¬solver.isCancelled s
  short : ¬(decide (r.total = 0) || r.targetReached)
  next : r.next? a.reachableBranches = some b
  left : ¬usedUp budget r.solverCalls

variable {solver : Solver σ} {a : BranchAnalysis} {b : Branch} {limit budget : Option Nat}
  {conditions : List (String × Option FlowPath)} {calls : Nat} {reason : String} {s s' : σ}
  {sweep : Sweep} {attempt : Attempt} {r r' : SynthesisReport}

/-! ## Conditions in turn -/

theorem Within.succ (h : ¬usedUp limit calls) : Within limit (calls + 1) := by
  rintro n rfl
  simpa [usedUp] using h

theorem Swept.sweep_eq (h : Swept solver limit conditions calls reason s sweep s') :
    solver.sweep limit conditions calls reason s = .ok (sweep, s') := by
  induction h with
  | done => rfl
  | cut hused =>
    rw [Solver.sweep, if_pos hused]
    rfl
  | sat hleft hask hstatus =>
    rw [Solver.sweep, if_neg hleft, bind_of_eq_ok hask, hstatus]
    rfl
  | next hleft hask hstatus _ ih =>
    rw [Solver.sweep, if_neg hleft, bind_of_eq_ok hask]
    rcases hstatus with ⟨hstatus, rfl⟩ | ⟨hstatus, rfl⟩
    all_goals
      rw [hstatus]
      exact ih

theorem exists_swept (h : solver.Answers) (limit : Option Nat)
    (conditions : List (String × Option FlowPath)) (calls : Nat) (reason : String) (s : σ) :
    ∃ sweep s', Swept solver limit conditions calls reason s sweep s' := by
  induction conditions generalizing calls reason s with
  | nil => exact ⟨_, s, .done⟩
  | cons x rest ih =>
    by_cases hused : usedUp limit calls
    · exact ⟨_, s, .cut hused⟩
    obtain ⟨result, s1, hask⟩ := h x.1 s
    cases hstatus : result.status with
    | sat => exact ⟨_, s1, .sat hused hask hstatus⟩
    | unsat =>
      obtain ⟨sweep, s', hrest⟩ := ih (calls + 1) reason s1
      exact ⟨sweep, s', .next hused hask (.inl ⟨hstatus, rfl⟩) hrest⟩
    | unknown =>
      obtain ⟨sweep, s', hrest⟩ := ih (calls + 1) result.reason s1
      exact ⟨sweep, s', .next hused hask (.inr ⟨hstatus, rfl⟩) hrest⟩

theorem Swept.within (h : Swept solver limit conditions calls reason s sweep s')
    (hcalls : Within limit calls) : Within limit sweep.calls := by
  induction h with
  | done | cut _ => exact hcalls
  | sat hleft _ _ => exact .succ hleft
  | next hleft _ _ _ ih => exact ih (.succ hleft)

theorem Swept.of_ended (h : Swept solver limit conditions calls reason s (.ended attempt) s') :
    attempt = .outOfCalls attempt.calls ∧ usedUp limit attempt.calls ∨
      attempt.result.status = .sat ∧ ∃ x ∈ conditions, attempt.path = x.2 ∧
        ∃ s s', solver.ask x.1 s = .ok (attempt.result, s') := by
  generalize hsweep : Sweep.ended attempt = sweep at h
  induction h with
  | done => cases hsweep
  | cut hused =>
    obtain ⟨⟩ := hsweep
    exact .inl ⟨rfl, hused⟩
  | sat _ hask hstatus =>
    obtain ⟨⟩ := hsweep
    exact .inr ⟨hstatus, _, mem_cons_self, rfl, _, _, hask⟩
  | next _ _ _ _ ih =>
    refine (ih hsweep).imp_right ?_
    rintro ⟨hstatus, x, hx, hfound⟩
    exact ⟨hstatus, x, mem_cons_of_mem _ hx, hfound⟩

/-! ## Attempts -/

theorem exists_settle (h : solver.Answers) (limit : Option Nat) (b : Branch) (hasPath : Bool)
    (calls : Nat) (reason : String) (s : σ) :
    ∃ attempt s', solver.settle limit b hasPath calls reason s = .ok (attempt, s') := by
  unfold settle
  split
  · exact ⟨_, s, rfl⟩
  · split
    · obtain ⟨result, s', hask⟩ := h b.condition s
      rw [bind_of_eq_ok hask]
      split <;> exact ⟨_, s', rfl⟩
    · exact ⟨_, s, rfl⟩

theorem settle_cases {hasPath : Bool}
    (h : solver.settle limit b hasPath calls reason s = .ok (attempt, s')) :
    attempt.path = none ∧ (attempt.result.status = .unsat → reason = "") ∧
      (attempt.calls = calls ∨
        ¬usedUp limit calls ∧ attempt.calls = calls + 1) := by
  unfold settle at h
  split at h
  · rename_i hempty
    obtain ⟨⟩ := h
    exact ⟨rfl, fun _ => String.isEmpty_iff.mp hempty, .inl rfl⟩
  · split at h
    · rename_i hfree
      have hleft : ¬usedUp limit calls := by
        simpa using (Bool.and_eq_true_iff.mp hfree).2
      obtain ⟨result, s1, -, h⟩ := exists_of_bind_eq_ok h
      split at h
      · obtain ⟨⟩ := h
        exact ⟨rfl, nofun, .inr ⟨hleft, rfl⟩⟩
      · rename_i hstatus
        obtain ⟨⟩ := h
        exact ⟨rfl, fun h => absurd h hstatus, .inr ⟨hleft, rfl⟩⟩
    · obtain ⟨⟩ := h
      exact ⟨rfl, nofun, .inl rfl⟩

theorem Tried.solveBranch_eq (h : Tried solver a b limit s attempt s') :
    solver.solveBranch a b limit s = .ok (attempt, s') := by
  unfold solveBranch
  cases h with
  | ended hswept =>
    rw [bind_of_eq_ok hswept.sweep_eq]
    rfl
  | settled hswept hsettle =>
    rw [bind_of_eq_ok hswept.sweep_eq]
    exact hsettle

theorem exists_tried (h : solver.Answers) (a : BranchAnalysis) (b : Branch) (limit : Option Nat)
    (s : σ) : ∃ attempt s', Tried solver a b limit s attempt s' := by
  obtain ⟨sweep, s1, hswept⟩ := exists_swept h limit (a.candidates b) 0 "" s
  cases sweep with
  | ended attempt => exact ⟨attempt, s1, .ended hswept⟩
  | unsolved calls reason =>
    obtain ⟨attempt, s', hsettle⟩ := exists_settle h limit b
      (!(a.pathsThrough (.nat b.id)).isEmpty) calls reason s1
    exact ⟨attempt, s', .settled hswept hsettle⟩

theorem tried_of_solveBranch (h : solver.Answers)
    (hattempt : solver.solveBranch a b limit s = .ok (attempt, s')) :
    Tried solver a b limit s attempt s' := by
  obtain ⟨attempt', s'', htried⟩ := exists_tried h a b limit s
  obtain ⟨⟩ := hattempt.symm.trans htried.solveBranch_eq
  exact htried

theorem mem_pathsThrough_iff {i : Nat} {p : FlowPath} :
    p ∈ a.pathsThrough (.nat i) ↔ p ∈ a.paths ∧ i ∈ p.branches := by
  have hvalue (n : Nat) : (Json.nat n).value? = some (.fin n) := rfl
  have hbeq (j : Nat) : Json.nat j == Json.nat i ↔ j = i := by
    rw [Json.beq_of_value? (hvalue j) (hvalue i), decide_eq_true_iff, Extended.fin.injEq,
      Nat.cast_inj]
  simp only [pathsThrough, mem_filter, any_eq_true, hbeq,
    exists_eq_right]

theorem mem_candidates_iff {x : String × Option FlowPath} :
    x ∈ a.candidates b ↔
      (∃ p ∈ a.paths, b.id ∈ p.branches ∧ x = (p.condition, some p)) ∨
        (∀ p ∈ a.paths, b.id ∉ p.branches) ∧ x = (b.condition, none) := by
  unfold candidates
  split
  · rename_i hnil
    have hnone : ∀ p ∈ a.paths, b.id ∉ p.branches := fun p hp hb =>
      not_mem_nil (hnil ▸ mem_pathsThrough_iff.mpr ⟨hp, hb⟩)
    rw [mem_singleton]
    refine ⟨fun h => .inr ⟨hnone, h⟩, ?_⟩
    rintro (⟨p, hp, hb, -⟩ | ⟨-, h⟩)
    · exact absurd hb (hnone p hp)
    · exact h
  · rename_i hne
    obtain ⟨q, hq⟩ := exists_mem_of_ne_nil _ hne
    obtain ⟨hq, hqb⟩ := mem_pathsThrough_iff.mp hq
    rw [mem_map]
    constructor
    · rintro ⟨p, hp, rfl⟩
      obtain ⟨hp, hb⟩ := mem_pathsThrough_iff.mp hp
      exact .inl ⟨p, hp, hb, rfl⟩
    · rintro (⟨p, hp, hb, rfl⟩ | ⟨hnone, -⟩)
      · exact ⟨p, mem_pathsThrough_iff.mpr ⟨hp, hb⟩, rfl⟩
      · exact absurd hqb (hnone q hq)

theorem Tried.within (h : Tried solver a b limit s attempt s') : Within limit attempt.calls := by
  have hzero : Within limit 0 := fun n _ => Nat.zero_le n
  cases h with
  | ended hswept => exact hswept.within hzero
  | settled hswept hsettle =>
    rcases (settle_cases hsettle).2.2 with heq | ⟨hleft, heq⟩
    · rw [heq]
      exact hswept.within hzero
    · rw [heq]
      exact .succ hleft

theorem Tried.of_path (h : Tried solver a b limit s attempt s') {p : FlowPath}
    (hp : attempt.path = some p) :
    p ∈ a.paths ∧ b.id ∈ p.branches ∧ attempt.result.status = .sat ∧
      ∃ s s', solver.ask p.condition s = .ok (attempt.result, s') := by
  cases h with
  | ended hswept =>
    rcases hswept.of_ended with ⟨hcut, -⟩ | ⟨hsat, x, hx, hpath, hask⟩
    · rw [hcut] at hp
      cases hp
    · rcases mem_candidates_iff.mp hx with ⟨q, hq, hb, rfl⟩ | ⟨-, rfl⟩
      · cases hp.symm.trans hpath
        exact ⟨hq, hb, hsat, hask⟩
      · cases hp.symm.trans hpath
  | settled _ hsettle => cases hp.symm.trans (settle_cases hsettle).1

theorem exists_attempt (h : solver.Answers)
    (hsorted : a.reachableBranches.Pairwise fun b b' => b.id < b'.id)
    (hr : Accounts a.reachableBranches budget r) (hnext : r.next? a.reachableBranches = some b)
    (hused : ¬usedUp budget r.solverCalls) (s : σ) :
    ∃ attempt s', solver.solveBranch a b (budget.map (· - r.solverCalls)) s = .ok (attempt, s') ∧
      Accounts a.reachableBranches budget (r.record a.reachableBranches b attempt) ∧
      (r.record a.reachableBranches b attempt).attempted = r.attempted ++ [b.id] := by
  obtain ⟨attempt, s', htried⟩ := exists_tried h a b (budget.map (· - r.solverCalls)) s
  have hwithin : ∀ n, budget = some n → r.solverCalls + attempt.calls ≤ n := by
    rintro n rfl
    have hleft : r.solverCalls < n := by simpa [usedUp] using hused
    have hmade : attempt.calls ≤ n - r.solverCalls := htried.within _ rfl
    omega
  exact ⟨attempt, s', htried.solveBranch_eq,
    hr.record hsorted attempt hnext hwithin fun p hp => (htried.of_path hp).2.1⟩

/-! ## One attempt after another -/

theorem stops_or_goesOn (solver : Solver σ) (a : BranchAnalysis) (budget : Option Nat)
    (r : SynthesisReport) (s : σ) :
    (∃ r', Stops solver a budget r s r') ∨ ∃ b, GoesOn solver a budget r s b := by
  by_cases hlive : solver.isCancelled s
  · exact .inl ⟨_, .cancelled hlive⟩
  by_cases hshort : (decide (r.total = 0) || r.targetReached)
  · exact .inl ⟨r, .reached hlive hshort⟩
  cases hnext : r.next? a.reachableBranches with
  | none => exact .inl ⟨r, .settled hlive hshort hnext⟩
  | some b =>
    by_cases hused : usedUp budget r.solverCalls
    · exact .inl ⟨_, .exhausted hlive hshort hnext hused⟩
    · exact .inr ⟨b, hlive, hshort, hnext, hused⟩

theorem Stops.loop_eq (h : Stops solver a budget r s r') (fuel : Nat) :
    solver.loop a budget (fuel + 1) r s = .ok (r', s) := by
  rw [loop, bind_of_eq_ok (show (get : StateT σ (Except Error) σ) s = .ok (s, s) from rfl)]
  cases h with
  | cancelled h =>
    rw [if_pos h]
    rfl
  | reached hlive h =>
    rw [if_neg hlive, if_pos h]
    rfl
  | settled hlive hshort h =>
    rw [if_neg hlive, if_neg hshort, h]
    rfl
  | exhausted hlive hshort hnext h =>
    rw [if_neg hlive, if_neg hshort, hnext]
    simp only [if_pos h]
    rfl

theorem GoesOn.loop_eq (h : GoesOn solver a budget r s b) (fuel : Nat) :
    solver.loop a budget (fuel + 1) r s =
      (do
        let attempt ← solver.solveBranch a b (budget.map (· - r.solverCalls))
        solver.loop a budget fuel (r.record a.reachableBranches b attempt)) s := by
  rw [loop, bind_of_eq_ok (show (get : StateT σ (Except Error) σ) s = .ok (s, s) from rfl),
    if_neg h.live, if_neg h.short, h.next]
  simp only [if_neg h.left]

theorem exists_loop (h : solver.Answers)
    (hsorted : a.reachableBranches.Pairwise fun b b' => b.id < b'.id) (budget : Option Nat)
    (fuel : Nat) (s : σ) (hr : Accounts a.reachableBranches budget r)
    (hfuel : r.total < fuel + r.attempted.length) :
    ∃ r' s', solver.loop a budget fuel r s = .ok (r', s') ∧
      Accounts a.reachableBranches budget r' ∧
      Ended solver a.reachableBranches budget r' s' := by
  -- Each round attempts one more branch, so the fuel lasts for all of them.
  induction fuel generalizing r s with
  | zero =>
    have := hr.length_attempted_le
    omega
  | succ fuel ih =>
    rcases stops_or_goesOn solver a budget r s with ⟨r', hstops⟩ | ⟨b, hgoes⟩
    · refine ⟨r', s, hstops.loop_eq fuel, ?_⟩
      cases hstops with
      | cancelled h => exact ⟨{ hr with tidy := { hr.tidy with } }, .cancelled h rfl⟩
      | reached _ h => exact ⟨hr, .reached (by simpa using h)⟩
      | settled _ _ h =>
        refine ⟨hr, .settled fun b hb => ?_⟩
        simpa using find?_eq_none.mp h b hb
      | exhausted _ _ _ h =>
        obtain ⟨n, hn, hle⟩ : ∃ n, budget = some n ∧ n ≤ r.solverCalls := by
          simpa [usedUp, Option.any_eq_true] using h
        exact ⟨{ hr with tidy := { hr.tidy with } }, .exhausted n hn hle rfl⟩
    · obtain ⟨attempt, s', hattempt, hr', hlonger⟩ :=
        exists_attempt h hsorted hr hgoes.next hgoes.left s
      rw [hgoes.loop_eq, bind_of_eq_ok hattempt]
      refine ih s' hr' ?_
      rw [hlonger, length_append, length_singleton, hr'.total_eq, ← hr.total_eq]
      omega

/-! ## Settings -/

theorem budget_of_int? {settings : Settings} {k : Int} (h : settings.budgetFactor.int? = some k)
    (branches : Nat) : settings.budget branches = some (k.toNat * max branches 1) := by
  unfold Settings.budget
  cases hf : settings.budgetFactor with
  | bool b =>
    rw [hf] at h
    cases h
    rfl
  | int n =>
    rw [hf] at h
    cases h
    rfl
  | real x =>
    rw [hf] at h
    cases h

theorem one_le_of_int? {x : Scalar} {k : Int} (h : x.int? = some k)
    (hle : (Scalar.int 1).le x) : 1 ≤ k := by
  have hvalue : x.value? = some (.fin k) := by
    cases x with
    | bool b =>
      cases h
      cases b <;> rfl
    | int n =>
      cases h
      rfl
    | real x => cases h
  rw [Scalar.le, hvalue] at hle
  have hlt : ¬(k : Rat) < ((1 : Int) : Rat) := by
    simpa [Scalar.value?, Extended.le, Extended.lt] using hle
  exact_mod_cast not_lt.mp hlt

end Solver

namespace BranchAnalysis

theorem pairwise_reachableBranches {f : FunctionDecl} {body : Tree} {limit : Option Nat}
    {a : BranchAnalysis} (h : ofFunction f body limit = .ok a) :
    a.reachableBranches.Pairwise fun b b' => b.id < b'.id := by
  obtain ⟨d, hd, h⟩ := bind_eq_ok h
  obtain ⟨complexity, -, h⟩ := bind_eq_ok h
  obtain ⟨directions, -, h⟩ := bind_eq_ok h
  cases h
  refine Pairwise.filter _ (pairwise_iff_getElem.mpr fun i j hi hj hlt => ?_)
  have hcomplete : d.Complete := ofBody_eq_ok hd ▸ complete_drawn f.name body
  rw [hcomplete.branch_id i _ (getElem?_eq_getElem hi),
    hcomplete.branch_id j _ (getElem?_eq_getElem hj)]
  exact hlt

end BranchAnalysis

namespace Solver

open SynthesisReport

variable {σ : Type}

/-- Whatever a solver answers, and whenever it is cancelled, a run over the branches of an analysed
function ends with a report that accounts for every attempt. -/
theorem run_accounts (solver : Solver σ) (h : solver.Answers) {f : FunctionDecl} {body : Tree}
    {limit : Option Nat} {a : BranchAnalysis} (ha : BranchAnalysis.ofFunction f body limit = .ok a)
    (settings : Settings) (hfactor : (Scalar.int 1).le settings.budgetFactor = true)
    (target : Scalar) (htarget : ((Scalar.int 0).lt target && target.le (.int 1)) = true) (s : σ) :
    ∃ r s', solver.run a settings target s = .ok (r, s') ∧
      Ended solver a.reachableBranches (settings.budget r.total) r s' ∧
      r.attempted.length ≤ r.total ∧
      Accounts a.reachableBranches (settings.budget r.total) r ∧
      (∀ k, settings.budgetFactor.int? = some k → (r.solverCalls : Int) ≤ k * max r.total 1) ∧
      r.coveredSorted.Pairwise (· < ·) ∧
      ∀ i, i ∈ r.coveredSorted ↔ Among a.reachableBranches i ∧ ∃ c ∈ r.cases, i ∈ c.covers := by
  have hsorted := pairwise_reachableBranches ha
  generalize hbudget : settings.budget a.reachableBranches.length = budget
  obtain ⟨r, s', hloop, hr, hended⟩ := exists_loop h hsorted budget
    (a.reachableBranches.length + 1) s (accounts_start a.function target a.reachableBranches budget)
    (Nat.lt_succ_self _)
  have hperm := mergeSort_perm r.covered (· ≤ ·)
  rw [← hr.total_eq] at hbudget
  refine ⟨r, s', ?_, ?_, hr.length_attempted_le, ?_, ?_, ?_, ?_⟩
  · rw [run, if_pos htarget, ← hr.total_eq, hbudget, hr.total_eq]
    exact hloop
  · rw [hbudget]
    exact hended
  · rw [hbudget]
    exact hr
  · intro k hk
    have hone := one_le_of_int? hk hfactor
    have hle := hr.calls_le _ (hbudget.symm.trans (budget_of_int? hk r.total))
    calc (r.solverCalls : Int) ≤ ((k.toNat * max r.total 1 : Nat) : Int) := Int.ofNat_le.mpr hle
      _ = k * max r.total 1 := by rw [Nat.cast_mul, Int.toNat_of_nonneg (by omega)]
  · have hle : r.coveredSorted.Pairwise (· ≤ ·) := pairwise_mergeSort' (· ≤ ·) r.covered
    have hnodup := hperm.nodup_iff.mpr hr.tidy.covered_nodup
    exact (hle.and hnodup).imp fun hxy => lt_of_le_of_ne hxy.1 hxy.2
  · intro i
    exact hperm.mem_iff.trans (hr.covered_iff i)

/-- A solver that changes its mind: its answers depend only on how often it was asked, and it is
cancelled once it was asked five times. -/
def wavering : Solver Nat where
  ask _ := fun n =>
    .ok (if n % 3 = 0 then .unknown "too hard" else if n % 3 = 1 then .unsat else .sat [], n + 1)
  isCancelled n := 5 ≤ n

def twoDecisions : Tree :=
  let bare := fun kind ts =>
    Tree.node ⟨kind, .null, .null, .null, .null, .null, .null, .null, .null⟩ ts
  bare .compound [bare .ifElse [bare .expression []], bare .whileLoop [bare .expression []]]

theorem run_accounts_wavering :
    ∃ a, BranchAnalysis.ofFunction (.named .null) twoDecisions (some 9) = .ok a ∧
      ∃ r s', wavering.run a .standard (.int 1) 0 = .ok (r, s') ∧
        r.attempted.length ≤ r.total ∧
        Accounts a.reachableBranches (Settings.standard.budget r.total) r := by
  obtain ⟨d, hdraft⟩ : ∃ d, ofBody .null twoDecisions = .ok d :=
    ⟨_, Draft.ofBody_of_isOk (by decide +kernel)⟩
  obtain ⟨complexity, hcomplexity⟩ :
      ∃ c, Complexity.measure (.named .null) twoDecisions d.branches.length = .ok c := ⟨_, rfl⟩
  obtain ⟨directions, hdirections⟩ :
      ∃ t, Direction.ofFunction (.named .null) (some twoDecisions) = .ok t := ⟨_, rfl⟩
  have ha : ofFunction (.named .null) twoDecisions (some 9) = .ok ⟨.null, d.graph,
      d.branches, d.graph.paths d.branches (some 9), complexity, directions⟩ := by
    have hname : (FunctionDecl.named .null).name = .null := rfl
    simp only [ofFunction, hname, hdraft, hcomplexity, hdirections, bind,
      Except.bind]
    rfl
  obtain ⟨r, s', hrun, -, hlength, haccounts, -⟩ :=
    run_accounts wavering (fun _ _ => ⟨_, _, rfl⟩) ha
    .standard (by decide) (.int 1) (by decide) 0
  exact ⟨_, ha, r, s', hrun, hlength, haccounts⟩

end Solver

end Branchwise
