import Branchwise.Proofs.Domain.Intersection
import Branchwise.Proofs.Guard.Lowering

/-!
# The condition of a domain

A domain is read twice: asking it about a value compares the value with its data one after another,
and the solver is given a condition over the unknown of its variable.  Where the data are integers
both readings agree, for unknowns of every sort and whatever data are given together.
-/

namespace Branchwise

open Encoding Comparison Lowering

/-- The value of a variable as a number; a truth value is one or zero. -/
def Interpretation.number {K : Type} [Field K] [LinearOrder K] (I : Interpretation K)
    (s : TermSort) (x : String) : K :=
  (I.get s x).toReal

theorem Valuation.number_interpretation (v : Valuation) (s : TermSort) (x : String) :
    v.interpretation.number s x = v.number s x := by
  cases s <;> rfl

theorem Value.onNumbers_holds {K : Type} [Field K] [LinearOrder K] [IsStrictOrderedRing K]
    (r : Comparison) (a b : Value K) :
    onNumbers (fun m n => r.holds m n) (fun x y => r.holds x y) a b =
      r.holds a.toReal b.toReal := by
  have hcast (m n : ℤ) : r.holds m n = r.holds (m : K) (n : K) := by
    cases r <;> simp [holds]
  have htruth (p : Bool) : ((if p then 1 else 0 : ℤ) : K) = if p then 1 else 0 := by
    cases p <;> simp
  cases a <;> cases b <;> simp only [onNumbers, number, toReal, hcast, htruth]

namespace Json

def integer? (j : Json) : Option ℤ := j.scalar?.bind Scalar.int?

def IsWhole (j : Json) : Prop := j = .null ∨ ∃ n, j.integer? = some n

/-- A stored value is no integer that is too long to be written. -/
def IsShort (j : Json) : Prop := ∀ n, j = .int n → Number.isWritable n

theorem value?_of_integer? {j : Json} {n : ℤ} (h : j.integer? = some n) :
    j.value? = some (.fin n) := by
  cases j with
  | bool b =>
    cases h
    cases b <;> rfl
  | int m =>
    cases h
    rfl
  | null | real | str | arr | obj => cases h

end Json

namespace Encoding

open Json

/-! ## Conditions of the data -/

variable {x : AnyTerm} {j : Json} {n : ℤ} {r : Comparison}

theorem ofConstant_int (n : ℤ) : Lowering.ofConstant (.int n) = ofInt n := rfl

theorem ofConstant_integer (h : j.integer? = some n) :
    ((∃ t, Lowering.ofConstant j = .ok t) ↔ j.IsShort) ∧
      ∀ t, Lowering.ofConstant j = .ok t → ∀ {K : Type} [Field K] [LinearOrder K]
        (I : Interpretation K), (t.denote I).toReal = n := by
  cases j with
  | bool b =>
    cases h
    refine ⟨⟨fun _ k hk => (by cases hk), fun _ => ⟨_, rfl⟩⟩, fun t ht _ _ _ I => ?_⟩
    cases ht
    cases b <;> simp [AnyTerm.denote, Value.toReal]
  | int m =>
    obtain rfl := Option.some.inj h
    rw [ofConstant_int]
    refine ⟨⟨fun hbuilt k hk => ?_, fun hshort => ?_⟩, fun t ht _ _ _ I => ?_⟩
    · obtain ⟨t, ht⟩ := hbuilt
      cases hk
      by_contra hlong
      rw [ofInt, if_neg hlong] at ht
      cases ht
    · obtain ⟨t, ht, -⟩ := exists_ofInt (hshort m rfl)
      exact ⟨t, ht⟩
    · rw [ofInt_agrees I ht]
      rfl
  | null | real | str | arr | obj => cases h

theorem compareWith_integer (r : Comparison) (x : AnyTerm) (h : j.integer? = some n) :
    ((∃ t, compareWith r x j = .ok t) ↔ j.IsShort) ∧ ∀ t, compareWith r x j = .ok t →
      ∀ I : Interpretation ℚ, t.denote I = r.holds (x.denote I).toReal (n : ℚ) := by
  obtain ⟨hbuilt, hvalue⟩ := ofConstant_integer h
  constructor
  · rw [← hbuilt]
    constructor
    · rintro ⟨t, ht⟩
      obtain ⟨c, hc, -⟩ := bind_eq_ok ht
      exact ⟨c, hc⟩
    · rintro ⟨c, hc⟩
      exact ⟨_, by rw [compareWith, hc]; rfl⟩
  · intro t ht I
    obtain ⟨c, hc, ht⟩ := bind_eq_ok ht
    cases ht
    rw [NumberPair.denote_compare, AnyTerm.denote_promote, Value.onNumbers_holds, hvalue c hc I]

/-- Some conditions on a term are there exactly if something is short enough, and they hold exactly
if the value of the term has a property. -/
structure States (x : AnyTerm) (conditions : Except Error (List (Term .bool))) (short : Prop)
    (P : Extended → Prop) : Prop where
  exists_iff : (∃ ts, conditions = .ok ts) ↔ short
  allHold_iff : ∀ ts, conditions = .ok ts → ∀ I : Interpretation ℚ,
    AllHold I ts ↔ P (.fin (x.denote I).toReal)

theorem States.none {P : Extended → Prop} {short : Prop} (hshort : short) (hP : ∀ p, P p) :
    States x (.ok []) short P where
  exists_iff := ⟨fun _ => hshort, fun _ => ⟨[], rfl⟩⟩
  allHold_iff := by
    intro ts hts I
    cases hts
    exact ⟨fun _ => hP _, fun _ => allHold_nil I⟩

theorem states_compareGiven (x : AnyTerm) (hj : j.IsWhole) (R : Extended → Extended → Prop)
    (hr : ∀ (q : ℚ) (n : ℤ), r.holds q (n : ℚ) ↔ R (.fin n) (.fin q)) :
    States x (compareGiven r x j) j.IsShort fun p => ∀ y, j.value? = some y → R y p := by
  rcases hj with rfl | ⟨n, hn⟩
  · exact .none (fun _ h => nomatch h) fun _ _ h => nomatch h
  · obtain ⟨hbuilt, hvalue⟩ := compareWith_integer r x hn
    have hplace := value?_of_integer? hn
    rw [compareGiven, if_neg (by rw [isNull_of_value? hplace]; exact nofun)]
    constructor
    · rw [← hbuilt]
      constructor
      · rintro ⟨ts, hts⟩
        obtain ⟨t, ht, -⟩ := bind_eq_ok hts
        exact ⟨t, ht⟩
      · rintro ⟨t, ht⟩
        exact ⟨[t], by rw [ht]; rfl⟩
    · intro ts hts I
      obtain ⟨t, ht, hts⟩ := bind_eq_ok hts
      cases hts
      rw [AllHold, List.forall_mem_singleton, hvalue t ht, hr, hplace]
      exact ⟨fun h _ heq => Option.some.inj heq ▸ h, fun h => h _ rfl⟩

theorem denote_any (I : Interpretation ℚ) (ts : List (Term .bool)) :
    (Term.any ts).denote I = true ↔ ∃ t ∈ ts, t.denote I = true := by
  fun_induction Term.any ts with
  | case1 => simp
  | case2 t => simp
  | case3 t ts _ ih => simp [ih]

theorem states_listed (x : AnyTerm) {allowed : Option (List Json)}
    (h : ∀ vs, allowed = some vs → ∀ v ∈ vs, ∃ n, v.integer? = some n) :
    States x (listed x allowed) (∀ vs, allowed = some vs → ∀ v ∈ vs, v.IsShort)
      (Domain.Listed allowed) := by
  cases allowed with
  | none => exact .none (fun _ h => nomatch h) Domain.listed_none
  | some vs =>
    have hint := h vs rfl
    constructor
    · constructor
      · rintro ⟨ts, hts⟩ _ hvs v hv
        cases hvs
        obtain ⟨us, hus, -⟩ := bind_eq_ok hts
        obtain ⟨t, -, ht⟩ := (mapM_eq_ok hus).1 v hv
        obtain ⟨n, hn⟩ := hint v hv
        exact (compareWith_integer .eq x hn).1.mp ⟨t, ht⟩
      · intro hshort
        obtain ⟨us, hus⟩ : ∃ us, vs.mapM (compareWith .eq x) = .ok us := by
          refine exists_mapM_eq_ok fun v hv => ?_
          obtain ⟨n, hn⟩ := hint v hv
          exact (compareWith_integer .eq x hn).1.mpr (hshort vs rfl v hv)
        exact ⟨_, by rw [listed, hus]; rfl⟩
    · intro ts hts I
      obtain ⟨us, hus, hts⟩ := bind_eq_ok hts
      cases hts
      have hholds (v : Json) (hv : v ∈ vs) (t : Term .bool) (ht : compareWith .eq x v = .ok t) :
          t.denote I = true ↔ v.value? = some (.fin (x.denote I).toReal) := by
        obtain ⟨n, hn⟩ := hint v hv
        rw [(compareWith_integer .eq x hn).2 t ht, value?_of_integer? hn]
        simp [holds, eq_comm]
      rw [AllHold, List.forall_mem_singleton, denote_any, Domain.listed_some_iff]
      constructor
      · rintro ⟨t, ht, htrue⟩
        obtain ⟨v, hv, hvt⟩ := (mapM_eq_ok hus).2 t ht
        exact ⟨v, hv, (hholds v hv t hvt).mp htrue⟩
      · rintro ⟨v, hv, hplace⟩
        obtain ⟨t, ht, hvt⟩ := (mapM_eq_ok hus).1 v hv
        exact ⟨t, ht, (hholds v hv t hvt).mpr hplace⟩

end Encoding

/-! ## Domains over integers -/

namespace Domain

open Json Encoding

/-- A domain without a guard whose data are integers. -/
structure IsIntegral (d : Domain) : Prop where
  variableName : d.variableName.IsText
  lower : d.lower.IsWhole
  upper : d.upper.IsWhole
  allowed : ∀ vs, d.allowed = some vs → ∀ v ∈ vs, ∃ n, v.integer? = some n
  exact : d.exact.IsWhole
  guard : d.guard = .null ∨ d.guard = .str ""
  source : d.source.IsText

structure IsShort (d : Domain) : Prop where
  exact : d.exact.IsShort
  allowed : ∀ vs, d.allowed = some vs → ∀ v ∈ vs, v.IsShort
  lower : d.lower.IsShort
  upper : d.upper.IsShort

variable {d : Domain} {scope : NameScope} {x : String} {c : Condition}

theorem IsIntegral.isNumeric (hd : d.IsIntegral) : d.IsNumeric := by
  have hnumber {j : Json} : (∃ n, j.integer? = some n) → j.IsNumber := fun ⟨n, hn⟩ =>
    Option.isSome_iff_exists.mpr ⟨_, value?_of_integer? hn⟩
  exact {
    variableName := hd.variableName
    lower := hd.lower.imp_right hnumber
    upper := hd.upper.imp_right hnumber
    allowed := fun vs hvs v hv => hnumber (hd.allowed vs hvs v hv)
    exact := hd.exact.imp_right hnumber
    guard := hd.guard.imp_right fun h => ⟨_, h⟩
    source := hd.source }

/-- A domain over numbers tells whether its data contradict each other at first sight, and admits
nothing then. -/
theorem IsNumeric.exists_isEmpty (hd : d.IsNumeric) :
    ∃ b, d.isEmpty = .ok b ∧ (b → ∀ p, ¬d.Admits p) := by
  unfold isEmpty
  split
  · next hnil => exact ⟨true, rfl, fun _ p hp => not_listed_nil p (hnil ▸ hp.2.1)⟩
  · split
    · exact ⟨false, rfl, nofun⟩
    · next hgiven =>
      rw [Bool.or_eq_true, not_or] at hgiven
      obtain ⟨lo, hlo⟩ :=
        (hd.lower.resolve_left fun h => hgiven.1 (by rw [h]; rfl)).exists_value
      obtain ⟨hi, hhi⟩ :=
        (hd.upper.resolve_left fun h => hgiven.2 (by rw [h]; rfl)).exists_value
      refine ⟨_, less_of_value? hhi hlo, fun hlt p hp => ?_⟩
      exact absurd ((hp.2.2.1 lo hlo).trans (hp.2.2.2 hi hhi)) (not_le.mpr (of_decide_eq_true hlt))

theorem domain_of_isEmpty (hname : unknownName d.variableName = .ok x)
    (hempty : d.isEmpty = .ok true) : domain scope d = .ok ⟨.bool false, []⟩ := by
  rw [domain, hname, hempty]
  rfl

theorem domain_eq_ok_iff (hname : unknownName d.variableName = .ok x)
    (hempty : d.isEmpty = .ok false) (hguard : d.guard.isVoid) :
    domain scope d = .ok c ↔
      let t := AnyTerm.var (scope.sort d.variableName) x
      ∃ exact list lower upper, compareGiven .eq t d.exact = .ok exact ∧
        listed t d.allowed = .ok list ∧ compareGiven .ge t d.lower = .ok lower ∧
        compareGiven .le t d.upper = .ok upper ∧
        c = ⟨.all (exact ++ list ++ lower ++ upper), []⟩ := by
  unfold domain
  simp only [hname, hempty, hguard, ok_bind]
  constructor
  · intro h
    obtain ⟨exact, hexact, h⟩ := bind_eq_ok h
    obtain ⟨list, hlist, h⟩ := bind_eq_ok h
    obtain ⟨lower, hlower, h⟩ := bind_eq_ok h
    obtain ⟨upper, hupper, h⟩ := bind_eq_ok h
    exact ⟨exact, list, lower, upper, hexact, hlist, hlower, hupper, (Except.ok.inj h).symm⟩
  · rintro ⟨exact, list, lower, upper, hexact, hlist, hlower, hupper, rfl⟩
    rw [hexact, hlist, hlower, hupper]
    rfl

theorem IsIntegral.states (hd : d.IsIntegral) (t : AnyTerm) :
    States t (compareGiven .eq t d.exact) d.exact.IsShort
        (fun p => ∀ y, d.exact.value? = some y → p = y) ∧
      States t (listed t d.allowed) (∀ vs, d.allowed = some vs → ∀ v ∈ vs, v.IsShort)
        (Listed d.allowed) ∧
      States t (compareGiven .ge t d.lower) d.lower.IsShort
        (fun p => ∀ y, d.lower.value? = some y → y ≤ p) ∧
      States t (compareGiven .le t d.upper) d.upper.IsShort
        (fun p => ∀ y, d.upper.value? = some y → p ≤ y) := by
  refine ⟨states_compareGiven t hd.exact (fun y p => p = y) ?_, states_listed t hd.allowed,
    states_compareGiven t hd.lower (· ≤ ·) ?_, states_compareGiven t hd.upper (fun y p => p ≤ y) ?_⟩
  · simp [holds]
  · simp [holds, Extended.fin_le_fin]
  · simp [holds, Extended.fin_le_fin]

/-- A domain over integers has a condition exactly if it is empty at first sight or all its data can
be written. -/
theorem IsIntegral.exists_domain_iff (hd : d.IsIntegral)
    (hname : unknownName d.variableName = .ok x) (hguard : d.guard.isVoid) :
    (∃ c, domain scope d = .ok c) ↔ d.isEmpty = .ok true ∨ d.IsShort := by
  obtain ⟨b, hempty, -⟩ := hd.isNumeric.exists_isEmpty
  obtain ⟨hexact, hlist, hlower, hupper⟩ := hd.states (.var (scope.sort d.variableName) x)
  cases b with
  | true => exact ⟨fun _ => .inl hempty, fun _ => ⟨_, domain_of_isEmpty hname hempty⟩⟩
  | false =>
    simp only [domain_eq_ok_iff hname hempty hguard, hempty, Except.ok.injEq, Bool.false_eq_true,
      false_or]
    constructor
    · rintro ⟨_, ts, us, ws, zs, hts, hus, hws, hzs, -⟩
      exact ⟨hexact.exists_iff.mp ⟨ts, hts⟩, hlist.exists_iff.mp ⟨us, hus⟩,
        hlower.exists_iff.mp ⟨ws, hws⟩, hupper.exists_iff.mp ⟨zs, hzs⟩⟩
    · intro hshort
      obtain ⟨ts, hts⟩ := hexact.exists_iff.mpr hshort.exact
      obtain ⟨us, hus⟩ := hlist.exists_iff.mpr hshort.allowed
      obtain ⟨ws, hws⟩ := hlower.exists_iff.mpr hshort.lower
      obtain ⟨zs, hzs⟩ := hupper.exists_iff.mpr hshort.upper
      exact ⟨_, ts, us, ws, zs, hts, hus, hws, hzs, rfl⟩

/-- The condition of a domain over integers is true exactly if the value of the variable is
admitted. -/
theorem IsIntegral.eval_domain_iff (hd : d.IsIntegral)
    (hname : unknownName d.variableName = .ok x) (hguard : d.guard.isVoid)
    (hc : domain scope d = .ok c) : c.sides = [] ∧ ∀ v : Valuation,
      c.term.eval v = true ↔ d.Admits (.fin (v.number (scope.sort d.variableName) x)) := by
  obtain ⟨b, hempty, hnone⟩ := hd.isNumeric.exists_isEmpty
  cases b with
  | true =>
    cases (domain_of_isEmpty hname hempty).symm.trans hc
    exact ⟨rfl, fun v => ⟨nofun, fun h => absurd h (hnone rfl _)⟩⟩
  | false =>
    obtain ⟨hexact, hlist, hlower, hupper⟩ := hd.states (.var (scope.sort d.variableName) x)
    obtain ⟨ts, us, ws, zs, hts, hus, hws, hzs, rfl⟩ := (domain_eq_ok_iff hname hempty hguard).mp hc
    refine ⟨rfl, fun v => ?_⟩
    rw [← Term.denote_interpretation, denote_all, allHold_append, allHold_append, allHold_append,
      hexact.allHold_iff ts hts, hlist.allHold_iff us hus, hlower.allHold_iff ws hws,
      hupper.allHold_iff zs hzs, AnyTerm.denote_var, and_assoc, and_assoc,
      ← v.number_interpretation]
    rfl

/-- **The condition of a domain agrees with the domain.**  A domain over integers without a guard
has a condition if its data can be written or contradict each other at first sight.  In every
valuation the condition is true exactly if the value of the variable is admitted, and that is what
asking the domain about a number of this value tells. -/
theorem condition_true_iff_admits (scope : NameScope) (hd : d.IsIntegral) :
    ∃ x, unknownName d.variableName = .ok x ∧
      ((∃ c, Encoding.domain scope d = .ok c) ↔ d.isEmpty = .ok true ∨ d.IsShort) ∧
      ∀ c, Encoding.domain scope d = .ok c → c.sides = [] ∧ ∀ v : Valuation,
        let q := v.number (scope.sort d.variableName) x
        (c.term.eval v = true ↔ d.Admits (.fin q)) ∧
          ∀ j : Json, j.value? = some (.fin q) → d.admits j = .ok (c.term.eval v) := by
  obtain ⟨s, hs⟩ := hd.variableName
  obtain ⟨x, hname⟩ : ∃ x, unknownName d.variableName = .ok x := ⟨_, by rw [hs]; rfl⟩
  have hguard : d.guard.isVoid := by
    rcases hd.guard with h | h <;> rw [h] <;> rfl
  refine ⟨x, hname, hd.exists_domain_iff hname hguard, fun c hc => ?_⟩
  obtain ⟨hsides, hiff⟩ := hd.eval_domain_iff hname hguard hc
  refine ⟨hsides, fun v => ⟨hiff v, fun j hj => ?_⟩⟩
  obtain ⟨p, hp, hadmits⟩ := hd.isNumeric.answers_admits hj
  rw [hp, Except.ok.injEq, Bool.eq_iff_iff, hadmits, hiff v]

/-- A truth value between bounds, one of which is a truth value itself, in a list and with an exact
value. -/
def sampleFlag : Domain :=
  ⟨.str "flag", .bool false, .int 7, some [.int 1, .int 5], .int 1, .null, .str "user"⟩

theorem condition_true_iff_admits_flag :
    sampleFlag.IsIntegral ∧ sampleFlag.IsShort ∧
      ∃ c, Encoding.domain ⟨fun _ => .bool, .empty⟩ sampleFlag = .ok c ∧ ∀ v : Valuation,
        sampleFlag.admits (.bool (v.bool "flag")) = .ok (c.term.eval v) := by
  have hd : sampleFlag.IsIntegral := {
    variableName := ⟨_, rfl⟩
    lower := .inr ⟨_, rfl⟩
    upper := .inr ⟨_, rfl⟩
    allowed := by
      rintro _ ⟨⟩ v hv
      fin_cases hv <;> exact ⟨_, rfl⟩
    exact := .inr ⟨_, rfl⟩
    guard := .inl rfl
    source := ⟨_, rfl⟩ }
  have hshort : sampleFlag.IsShort := {
    exact := by rintro n ⟨⟩; decide +kernel
    allowed := by
      rintro _ ⟨⟩ v hv
      fin_cases hv <;> (rintro n ⟨⟩; decide +kernel)
    lower := nofun
    upper := by rintro n ⟨⟩; decide +kernel }
  obtain ⟨x, hname, hbuilt, hholds⟩ :=
    condition_true_iff_admits ⟨fun _ => .bool, .empty⟩ hd
  obtain ⟨c, hc⟩ := hbuilt.mpr (.inr hshort)
  refine ⟨hd, hshort, c, hc, fun v => ((hholds c hc).2 v).2 _ ?_⟩
  obtain rfl : "flag" = x := Except.ok.inj hname
  cases h : v.bool "flag" <;>
    simp [Json.value?, Json.scalar?, Scalar.value?, Valuation.number, h]

end Domain

end Branchwise
