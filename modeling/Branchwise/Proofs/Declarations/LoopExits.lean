import Branchwise.Declarations.Domains
import Branchwise.Proofs.Guard.Bounds
import Mathlib.Data.List.TakeWhile

/-!
# Loop exits

The guard of a loop bounds a local variable that it compares with a number.  The bound keeps the
first value that fails the comparison, through which the loop is left.  So a loop can be left within
the domain of a variable exactly if nothing else cuts off that value.  No integer is next to an
infinite number, and there alone a guard makes the search for domains fail.
-/

namespace Branchwise

open List

/-! ## Comparisons and their exits -/

namespace BinaryOp

def Holds : BinaryOp → ℚ → ℚ → Prop
  | lt, a, b => a < b
  | le, a, b => a ≤ b
  | gt, a, b => b < a
  | ge, a, b => b ≤ a
  | eq, a, b => a = b
  | ne, a, b => a ≠ b
  | _, _, _ => False

/-- The first integer that fails a comparison of order with a number, next to those that pass. -/
def exit? : BinaryOp → ℚ → Option ℤ
  | lt, q => some q.ceil
  | le, q => some (q.floor + 1)
  | gt, q => some q.floor
  | ge, q => some (q.ceil - 1)
  | _, _ => none

/-- An integer passes a comparison or is the first that fails it. -/
def Keeps (op : BinaryOp) (q : ℚ) (v : ℤ) : Prop :=
  ∀ e, op.exit? q = some e → op.Holds v q ∨ v = e

variable {op : BinaryOp} {q : ℚ} {v e : ℤ}

theorem keeps_iff_of_exit? (h : op.exit? q = some e) : op.Keeps q v ↔ op.Holds v q ∨ v = e :=
  ⟨fun hkeeps => hkeeps e h, fun hor _ he => Option.some.inj (h.symm.trans he) ▸ hor⟩

theorem keeps_lt_iff : lt.Keeps q v ↔ v ≤ q.ceil := by
  rw [keeps_iff_of_exit? rfl, le_iff_lt_or_eq, Rat.lt_ceil_iff]
  rfl

theorem keeps_le_iff : le.Keeps q v ↔ v ≤ q.floor + 1 := by
  rw [keeps_iff_of_exit? rfl, le_iff_lt_or_eq, Int.lt_add_one_iff, Rat.le_floor_iff]
  rfl

theorem keeps_gt_iff : gt.Keeps q v ↔ q.floor ≤ v := by
  rw [keeps_iff_of_exit? rfl, le_iff_lt_or_eq, Rat.floor_lt_iff, @eq_comm ℤ v]
  rfl

theorem keeps_ge_iff : ge.Keeps q v ↔ q.ceil - 1 ≤ v := by
  rw [keeps_iff_of_exit? rfl, le_iff_lt_or_eq, Int.sub_one_lt_iff, Rat.ceil_le_iff, @eq_comm ℤ v]
  rfl

theorem not_holds_of_exit? (h : op.exit? q = some e) : ¬op.Holds e q := by
  cases op with
  | lt =>
    cases h
    exact not_lt.mpr (Rat.ceil_le_iff.mp le_rfl)
  | le =>
    cases h
    exact not_le.mpr (Rat.floor_lt_iff.mp (Int.lt_add_one_iff.mpr le_rfl))
  | gt =>
    cases h
    exact not_lt.mpr (Rat.le_floor_iff.mp le_rfl)
  | ge =>
    cases h
    exact not_le.mpr (Rat.lt_ceil_iff.mp (Int.sub_one_lt_iff.mpr le_rfl))
  | or | and | eq | ne | add | sub | mul | div | rem => cases h

/-- What fails a comparison lies at its exit or beyond it, seen from the number. -/
theorem abs_exit_lt (h : op.exit? q = some e) (hv : ¬op.Holds v q) (hne : v ≠ e) :
    |(e : ℚ) - q| < |v - q| := by
  have hkeeps : ¬op.Keeps q v := fun hkeeps => (hkeeps e h).elim hv hne
  have hfails := not_holds_of_exit? h
  have hbeyond : q ≤ e ∧ e < v ∨ v < e ∧ (e : ℚ) ≤ q := by
    cases op with
    | lt =>
      cases h
      exact .inl ⟨not_lt.mp hfails, not_le.mp (mt keeps_lt_iff.mpr hkeeps)⟩
    | le =>
      cases h
      exact .inl ⟨(not_le.mp hfails).le, not_le.mp (mt keeps_le_iff.mpr hkeeps)⟩
    | gt =>
      cases h
      exact .inr ⟨not_le.mp (mt keeps_gt_iff.mpr hkeeps), not_lt.mp hfails⟩
    | ge =>
      cases h
      exact .inr ⟨not_le.mp (mt keeps_ge_iff.mpr hkeeps), (not_le.mp hfails).le⟩
    | or | and | eq | ne | add | sub | mul | div | rem => cases h
  rcases hbeyond with ⟨hq, hlt⟩ | ⟨hlt, hq⟩
  · have hcast : (e : ℚ) < v := Int.cast_lt.mpr hlt
    exact (abs_lt.mpr ⟨by linarith, by linarith⟩).trans_le (le_abs_self _)
  · have hcast : (v : ℚ) < e := Int.cast_lt.mpr hlt
    exact (abs_lt.mpr ⟨by linarith, by linarith⟩).trans_le (neg_le_abs _)

end BinaryOp

/-- A loop of a body compares a variable with a number, in the outermost conjunction of its
guard. -/
def Tree.LoopCompares (body : Tree) (x : String) (op : BinaryOp) (q : ℚ) : Prop :=
  ∃ loop ∈ body.walk, loop.kind.isLoop ∧ ∃ guard e c,
    loop.label.condition = .str guard ∧ Guard.parse guard = .ok e ∧ (op, c) ∈ e.comparisonsOn x ∧
      c.value? = some (.fin q)

/-! ## Declared domains -/

theorem Json.value?_ofScalar (c : Scalar) : (ofScalar c).value? = c.value? := by
  cases c <;> rfl

theorem Json.isNumber_ofScalar {c : Scalar} (h : c.value?.isSome) : (ofScalar c).IsNumber := by
  rwa [IsNumber, value?_ofScalar]

theorem EnumDecl.isSome_value?_of_expressionValue? {known : Table Json Scalar} {text : String}
    {c : Scalar} (hknown : ∀ c ∈ known.values, c.value?.isSome)
    (h : expressionValue? known text = some c) : c.value?.isSome := by
  unfold expressionValue? at h
  split at h
  · exact hknown c (Table.mem_values_of_get? h)
  · obtain ⟨n, -, rfl⟩ := Option.map_eq_some_iff.mp h
    rfl
  · cases h

theorem EnumDecl.isSome_value?_of_evaluateFrom {decl : EnumDecl} {known : Table Json Scalar}
    {next : Int} {vs : List Enumerator} {ps : List (Json × Scalar)}
    (hknown : ∀ c ∈ known.values, c.value?.isSome)
    (h : decl.evaluateFrom known next vs = .ok ps) : ∀ p ∈ ps, p.2.value?.isSome = true := by
  induction vs generalizing known next ps with
  | nil =>
    cases h
    exact nofun
  | cons v vs ih =>
    obtain ⟨c, hc, h⟩ := bind_eq_ok h
    obtain ⟨name, -, h⟩ := bind_eq_ok h
    obtain ⟨rest, hrest, h⟩ := bind_eq_ok h
    cases h
    have hvalue : c.value?.isSome := by
      unfold enumeratorValue at hc
      split at hc
      · exact Except.ok.inj hc ▸ rfl
      · exact Except.ok.inj hc ▸ rfl
      · exact Except.ok.inj hc ▸ rfl
      · split at hc
        · cases hc
          exact isSome_value?_of_expressionValue? hknown ‹_›
        · cases hc
    refine forall_mem_cons.mpr ⟨hvalue, ih (fun c' hc' => ?_) hrest⟩
    rcases Table.mem_values_put hc' with hc' | rfl
    · exact hknown c' hc'
    · exact hvalue

namespace Domain

theorem isNumber_of_less {n : ℤ} {j : Json}
    (h : (Json.int n).less j = .ok true ∨ j.less (.int n) = .ok true) : j.IsNumber := by
  cases j with
  | bool | int => rfl
  | real r =>
    cases r with
    | finite | infinite => rfl
    | nan => rcases h with h | h <;> cases h
  | null | str | arr | obj => rcases h with h | h <;> cases h

theorem isNumber_of_tighter {n : ℤ} {j c : Json} {pick : Json → Json → Except Error Json}
    {test : Except Error Bool} (hpick : pick (.int n) j = do return if ← test then j else .int n)
    (htest : test = .ok true → j.IsNumber) (h : tighter pick (.int n) j = .ok c) : c.IsNumber := by
  unfold tighter at h
  rw [if_neg (show ¬(Json.int n).isNull from Bool.false_ne_true)] at h
  split at h
  · exact Except.ok.inj h ▸ rfl
  · rw [hpick] at h
    obtain ⟨other, hother, h⟩ := bind_eq_ok h
    cases other with
    | false => exact Except.ok.inj h ▸ rfl
    | true => exact Except.ok.inj h ▸ htest hother

theorem isNumeric_of_intersect_range {x source source' : String} {lo hi : ℤ} {lo' hi' : Json}
    {dom : Domain} (h : (range (.str x) (.int lo) (.int hi) (.str source)).intersect
      (range (.str x) lo' hi' (.str source')) = .ok dom) :
    dom.IsNumeric ∧ dom.variableName = .str x := by
  unfold intersect at h
  split at h
  · cases h
  · obtain ⟨c, hjoin, h⟩ := bind_eq_ok h
    obtain ⟨l, hl, hjoin⟩ := bind_eq_ok hjoin
    obtain ⟨u, hu, hjoin⟩ := bind_eq_ok hjoin
    have hl' : l.IsNumber := isNumber_of_tighter rfl (fun h => isNumber_of_less (.inl h)) hl
    have hu' : u.IsNumber := isNumber_of_tighter rfl (fun h => isNumber_of_less (.inr h)) hu
    cases hjoin
    cases h
    exact ⟨⟨⟨x, rfl⟩, .inr hl', .inr hu', nofun, .inl rfl, .inl rfl, ⟨_, rfl⟩⟩, rfl⟩

end Domain

namespace Domain

variable {x y : String} {op : BinaryOp} {c : Scalar} {dom : Domain} {v : ℤ} {q : ℚ}

/-! ## Bounds from comparisons -/

theorem ends_ceiling (c : Scalar) :
    Ends (fun n => ∃ q, c.value? = some (.fin q) ∧ n = q.ceil)
      (fun _ => ∀ q, c.value? ≠ some (.fin q)) (ceiling c) := by
  cases c with
  | bool b => exact .ok (by cases b <;> exact ⟨_, rfl, rfl⟩)
  | int m => exact .ok ⟨_, rfl, (Rat.ceil_intCast m).symm⟩
  | real r =>
    cases r with
    | finite => exact .ok ⟨_, rfl, rfl⟩
    | infinite negative => exact .error (by cases negative <;> exact nofun)
    | nan => exact .error nofun

theorem ends_floor (c : Scalar) :
    Ends (fun n => ∃ q, c.value? = some (.fin q) ∧ n = q.floor)
      (fun _ => ∀ q, c.value? ≠ some (.fin q)) (floor c) := by
  cases c with
  | bool b => exact .ok (by cases b <;> exact ⟨_, rfl, rfl⟩)
  | int m => exact .ok ⟨_, rfl, (Rat.floor_intCast m).symm⟩
  | real r =>
    cases r with
    | finite => exact .ok ⟨_, rfl, rfl⟩
    | infinite negative => exact .error (by cases negative <;> exact nofun)
    | nan => exact .error nofun

theorem isNumeric_atMost {j : Json} (hj : j.IsNumber) (x source : String) :
    (atMost (.str x) j (.str source)).IsNumeric :=
  ⟨⟨x, rfl⟩, .inl rfl, .inr hj, nofun, .inl rfl, .inl rfl, ⟨source, rfl⟩⟩

theorem isNumeric_atLeast {j : Json} (hj : j.IsNumber) (x source : String) :
    (atLeast (.str x) j (.str source)).IsNumeric :=
  ⟨⟨x, rfl⟩, .inr hj, .inl rfl, nofun, .inl rfl, .inl rfl, ⟨source, rfl⟩⟩

theorem admits_atMost {source : String} {j : Json} (hj : j.value? = some (.fin q)) :
    (atMost (.str x) j (.str source)).Admits (.fin v) ↔ v ≤ q := by
  rw [← Extended.fin_le_fin]
  exact ⟨fun h => h.2.2.2 _ hj, fun h => ⟨nofun, nofun, nofun, fun _ hy =>
    Option.some.inj (hj.symm.trans hy) ▸ h⟩⟩

theorem admits_atLeast {source : String} {j : Json} (hj : j.value? = some (.fin q)) :
    (atLeast (.str x) j (.str source)).Admits (.fin v) ↔ q ≤ v := by
  rw [← Extended.fin_le_fin]
  exact ⟨fun h => h.2.2.1 _ hj, fun h => ⟨nofun, nofun, fun _ hy =>
    Option.some.inj (hj.symm.trans hy) ▸ h, nofun⟩⟩

theorem numeric_of_loopBound {integral : Bool} (hc : c.value?.isSome)
    (h : loopBound (.str x) op c integral = .ok (some dom)) :
    dom.IsNumeric ∧ dom.variableName = .str x := by
  cases integral with
  | true =>
    cases op with
    | lt | le =>
      obtain ⟨n, -, h⟩ := bind_eq_ok h
      cases h
      exact ⟨isNumeric_atMost (j := .int _) rfl x _, rfl⟩
    | gt | ge =>
      obtain ⟨n, -, h⟩ := bind_eq_ok h
      cases h
      exact ⟨isNumeric_atLeast (j := .int _) rfl x _, rfl⟩
    | or | and | eq | ne | add | sub | mul | div | rem => cases h
  | false =>
    cases op with
    | lt =>
      cases h
      exact ⟨isNumeric_atMost (Json.isNumber_ofScalar hc) x _, rfl⟩
    | gt =>
      cases h
      exact ⟨isNumeric_atLeast (Json.isNumber_ofScalar hc) x _, rfl⟩
    | le | ge | or | and | eq | ne | add | sub | mul | div | rem => cases h

theorem loopBound_admits_iff {bound : Option Domain}
    (h : loopBound (.str x) op c true = .ok bound) :
    (∀ dom, bound = some dom → dom.Admits (.fin v)) ↔
      ∀ q, c.value? = some (.fin q) → op.Keeps q v := by
  cases op with
  | lt =>
    obtain ⟨n, hn, h⟩ := bind_eq_ok h
    cases h
    obtain ⟨q, hq, rfl⟩ := (ends_ceiling c).of_eq_ok n hn
    simp only [Option.some.injEq, forall_eq', hq, Extended.fin.injEq]
    rw [admits_atMost (j := .int _) rfl, Int.cast_le, BinaryOp.keeps_lt_iff]
  | le =>
    obtain ⟨n, hn, h⟩ := bind_eq_ok h
    cases h
    obtain ⟨q, hq, rfl⟩ := (ends_floor c).of_eq_ok n hn
    simp only [Option.some.injEq, forall_eq', hq, Extended.fin.injEq]
    rw [admits_atMost (j := .int _) rfl, Int.cast_le, BinaryOp.keeps_le_iff]
  | gt =>
    obtain ⟨n, hn, h⟩ := bind_eq_ok h
    cases h
    obtain ⟨q, hq, rfl⟩ := (ends_floor c).of_eq_ok n hn
    simp only [Option.some.injEq, forall_eq', hq, Extended.fin.injEq]
    rw [admits_atLeast (j := .int _) rfl, Int.cast_le, BinaryOp.keeps_gt_iff]
  | ge =>
    obtain ⟨n, hn, h⟩ := bind_eq_ok h
    cases h
    obtain ⟨q, hq, rfl⟩ := (ends_ceiling c).of_eq_ok n hn
    simp only [Option.some.injEq, forall_eq', hq, Extended.fin.injEq]
    rw [admits_atLeast (j := .int _) rfl, Int.cast_le, BinaryOp.keeps_ge_iff]
  | or | and | eq | ne | add | sub | mul | div | rem =>
    cases h
    exact iff_of_true nofun fun _ _ => nofun

/-- An integer is compared by order with a finite number only. -/
def CanBound (op : BinaryOp) (c : Scalar) : Prop :=
  op ∈ [BinaryOp.lt, .le, .gt, .ge] → ∃ q, c.value? = some (.fin q)

theorem exists_bind_iff {rounded : Except Error ℤ} {R : ℚ → ℤ → Prop} {bound : ℤ → Option Domain}
    (h : Ends (fun n => ∃ q, c.value? = some (.fin q) ∧ R q n)
      (fun _ => ∀ q, c.value? ≠ some (.fin q)) rounded) :
    (∃ b, (do return bound (← rounded)) = Except.ok b) ↔ ∃ q, c.value? = some (.fin q) := by
  cases rounded with
  | ok n => exact iff_of_true ⟨_, rfl⟩ ((h.of_eq_ok n rfl).imp fun _ => And.left)
  | error e => exact iff_of_false nofun fun ⟨q, hq⟩ => h.of_eq_error e rfl q hq

theorem exists_loopBound_iff {integral : Bool} :
    (∃ bound, loopBound (.str x) op c integral = .ok bound) ↔
      (integral → CanBound op c) := by
  cases integral with
  | false => exact iff_of_true (by cases op <;> exact ⟨_, rfl⟩) nofun
  | true =>
    cases op with
    | lt | ge => exact (exists_bind_iff (ends_ceiling c)).trans (by simp [CanBound])
    | le | gt => exact (exists_bind_iff (ends_floor c)).trans (by simp [CanBound])
    | or | and | eq | ne | add | sub | mul | div | rem =>
      exact iff_of_true ⟨none, rfl⟩ fun _ h => by simp at h

/-- The integers that a bound admits; without a bound these are all. -/
def Allows (bound : Option Domain) (v : ℤ) : Prop :=
  ∀ dom, bound = some dom → dom.admits (.int v) = .ok true

theorem allows_iff {bound : Option Domain} (h : ∀ dom, bound = some dom → dom.IsNumeric) :
    Allows bound v ↔ ∀ dom, bound = some dom → dom.Admits (.fin v) :=
  forall_congr' fun dom => forall_congr' fun hdom =>
    ((h dom hdom).answers_admits rfl).eq_ok_true_iff

/-- A bound allows the integers that pass a comparison and, of those that fail it, the one nearest
to the number. -/
structure IsTight (op : BinaryOp) (q : ℚ) (bound : Option Domain) (e : ℤ) : Prop where
  allows_iff : ∀ v, Allows bound v ↔ op.Holds v q ∨ v = e
  fails : ¬op.Holds e q
  nearest : ∀ v : ℤ, ¬op.Holds v q → v ≠ e → |(e : ℚ) - q| < |v - q|

/-- The bound of an integer is tight.  For another variable, a strict comparison allows the number
itself besides what passes, and one that is not strict gives no bound. -/
theorem loopBound_tight (x : String) (op : BinaryOp) (hop : op ∈ [BinaryOp.lt, .le, .gt, .ge])
    (hc : c.value? = some (.fin q)) :
    (∃ bound e, loopBound (.str x) op c true = .ok bound ∧ IsTight op q bound e) ∧
    ∃ bound, loopBound (.str x) op c false = .ok bound ∧
      ∀ v : ℤ, Allows bound v ↔ op ∈ [BinaryOp.le, .ge] ∨ op.Holds v q ∨ v = q := by
  have hsome : c.value?.isSome := hc ▸ rfl
  obtain ⟨bound, hbound⟩ := exists_loopBound_iff.mpr fun (_ : true) _ => ⟨q, hc⟩
  obtain ⟨other, hother⟩ := exists_loopBound_iff (x := x).mpr fun (h : false) => nomatch h
  refine ⟨⟨bound, ?_⟩, other, hother, fun v => ?_⟩
  · obtain ⟨e, he⟩ : ∃ e, op.exit? q = some e := by
      simp only [mem_cons, not_mem_nil, or_false] at hop
      rcases hop with rfl | rfl | rfl | rfl <;> exact ⟨_, rfl⟩
    refine ⟨e, hbound, fun v => ?_, BinaryOp.not_holds_of_exit? he,
      fun v => BinaryOp.abs_exit_lt he⟩
    rw [allows_iff fun dom hdom => (numeric_of_loopBound hsome (hdom ▸ hbound)).1,
      loopBound_admits_iff hbound, ← BinaryOp.keeps_iff_of_exit? he]
    simp [hc]
  · rw [allows_iff fun dom hdom => (numeric_of_loopBound hsome (hdom ▸ hother)).1]
    have hvalue : (Json.ofScalar c).value? = some (.fin q) := (Json.value?_ofScalar c).trans hc
    cases op with
    | lt =>
      cases hother
      simp [admits_atMost hvalue, le_iff_lt_or_eq, BinaryOp.Holds]
    | gt =>
      cases hother
      simp [admits_atLeast hvalue, le_iff_lt_or_eq, BinaryOp.Holds, eq_comm]
    | le | ge =>
      cases hother
      simp
    | or | and | eq | ne | add | sub | mul | div | rem => simp at hop

def twoAndHalf : Scalar := .real (.finite false 5629499534213120 (-51))

theorem loopBound_tight_twoAndHalf :
    twoAndHalf.value? = some (.fin (5 / 2)) ∧
      ∃ bound e, loopBound (.str "x") .le twoAndHalf true = .ok bound ∧
        IsTight .le (5 / 2) bound e := by
  have hvalue : twoAndHalf.value? = some (.fin (5 / 2)) := by decide +kernel
  exact ⟨hvalue, (loopBound_tight "x" .le (by decide) hvalue).1⟩

/-- For a variable that is no integer, a comparison that is not strict leaves more integers than a
tight bound. -/
theorem loopBound_loose :
    ¬∃ bound e, loopBound (.str "x") .le (.int 2) false = .ok bound ∧ IsTight .le 2 bound e := by
  rintro ⟨bound, e, hbound, h⟩
  cases hbound
  have hthree := ((h.allows_iff 3).mp nofun).resolve_left (by norm_num [BinaryOp.Holds])
  have hfour := ((h.allows_iff 4).mp nofun).resolve_left (by norm_num [BinaryOp.Holds])
  omega

/-! ## Narrowing -/

/-- Every domain of a table is over numbers, and for the variable under whose name it stands. -/
def AreNumeric (t : Table Json Domain) : Prop :=
  ∀ x dom, t.get? (.str x) = some dom → dom.IsNumeric ∧ dom.variableName = .str x

/-- The domain of a variable admits an integer; a variable without a domain may be any. -/
def Admitted (t : Table Json Domain) (x : String) (v : ℤ) : Prop :=
  ∀ dom, t.get? (.str x) = some dom → dom.admits (.int v) = .ok true

/-- A later table admits an integer for a variable exactly if the earlier one does and the integer
is kept. -/
structure Narrows (kept : String → ℤ → Prop) (t t' : Table Json Domain) : Prop where
  areNumeric : AreNumeric t'
  admitted_iff : ∀ x v, Admitted t' x v ↔ Admitted t x v ∧ kept x v

section Narrow

variable {t : Table Json Domain}

theorem AreNumeric.put (h : AreNumeric t) {name : Json}
    (hdom : ∀ x, name = .str x → dom.IsNumeric ∧ dom.variableName = .str x) :
    AreNumeric (t.put name dom) := by
  intro x dom' hget
  rw [Table.get?_put_of_isolated (Json.isolated_str x)] at hget
  split at hget
  · cases hget
    exact hdom x ((Json.isolated_str x _).1.mp ‹_›)
  · exact h x dom' hget

theorem AreNumeric.admitted_iff (h : AreNumeric t) :
    Admitted t x v ↔ ∀ dom, t.get? (.str x) = some dom → dom.Admits (.fin v) :=
  allows_iff fun dom hdom => (h x dom hdom).1

theorem AreNumeric.narrows_refl (h : AreNumeric t) {kept : String → ℤ → Prop}
    (hkept : ∀ x v, kept x v) : Narrows kept t t :=
  ⟨h, fun x v => (and_iff_left (hkept x v)).symm⟩

theorem Shows.narrows {R : Extended → Prop} {P : ℤ → Prop} (hdom : dom.Shows (.str y) R)
    (h : AreNumeric t) (hR : ∀ v : ℤ, R (.fin v) ↔ Admitted t y v ∧ P v) :
    Narrows (fun x v => x = y → P v) t (t.put (.str y) dom) := by
  have hput := h.put fun x hx => ⟨hdom.isNumeric, hdom.variableName_eq.trans hx⟩
  refine ⟨hput, fun x v => ?_⟩
  rw [hput.admitted_iff, Table.get?_put_of_isolated (Json.isolated_str x)]
  by_cases hx : x = y
  · subst hx
    rw [if_pos ((Json.isolated_str x _).1.mpr rfl)]
    simp [hdom.admits_iff, hR]
  · rw [if_neg fun hbeq => hx (Json.str.inj ((Json.isolated_str x _).1.mp hbeq)).symm]
    simp [h.admitted_iff, hx]

theorem AreNumeric.ends_narrow (h : AreNumeric t) (hdom : dom.IsNumeric)
    (hname : dom.variableName = .str y) :
    Ends (Narrows (fun x v => x = y → dom.Admits (.fin v)) t) (fun _ => False)
      (Domain.narrow t dom) := by
  unfold Domain.narrow
  rw [hname]
  cases hget : t.get? (.str y) with
  | none =>
    have hshows : dom.Shows (.str y) dom.Admits := ⟨hdom, hname, fun _ => Iff.rfl⟩
    exact .ok (hshows.narrows h fun v => by simp [Admitted, hget])
  | some prev =>
    obtain ⟨hprev, hprevName⟩ := h y prev hget
    obtain ⟨c, hc, hshows⟩ := exists_intersect hprev hdom (hprevName.trans hname.symm)
    rw [hprevName] at hshows
    simp only [hc]
    exact .ok (hshows.narrows h fun v => by simp [h.admitted_iff, hget])

/-- A step succeeds exactly if a condition holds, and then narrows a table. -/
def NarrowsIf (condition : Prop) (kept : String → ℤ → Prop) (t : Table Json Domain)
    (step : Except Error (Table Json Domain)) : Prop :=
  Ends (fun t' => condition ∧ Narrows kept t t') (fun _ => ¬condition) step

theorem AreNumeric.foldlM {α : Type} {f : Table Json Domain → α → Except Error (Table Json Domain)}
    {condition : α → Prop} {kept : α → String → ℤ → Prop} {as : List α}
    (hf : ∀ a ∈ as, ∀ t, AreNumeric t → NarrowsIf (condition a) (kept a) t (f t a))
    (h : AreNumeric t) :
    NarrowsIf (∀ a ∈ as, condition a) (fun x v => ∀ a ∈ as, kept a x v) t (as.foldlM f t) := by
  induction as generalizing t with
  | nil => exact .ok ⟨nofun, h.narrows_refl nofun⟩
  | cons a as ih =>
    simp only [forall_mem_cons] at hf ⊢
    rw [foldlM_cons]
    refine ((hf.1 t h).imp (fun _ => id) fun _ => mt And.left).bind fun t' ⟨hcondition, ht'⟩ => ?_
    refine (ih hf.2 ht'.areNumeric).imp (fun t'' ⟨hrest, ht''⟩ => ?_) fun _ => mt And.right
    refine ⟨⟨hcondition, hrest⟩, ht''.areNumeric, fun x v => ?_⟩
    rw [ht''.admitted_iff, ht'.admitted_iff, and_assoc]

end Narrow

end Domain

/-! ## Guards of loops -/

theorem Text.all_isBlank_of_trimChars {cs : List Char} (h : trimChars cs = []) :
    cs.all isBlank := by
  have hrest : ∀ c ∈ cs.dropWhile isBlank, isBlank c := by
    intro c hc
    have hdrop : (cs.dropWhile isBlank).reverse.dropWhile isBlank = [] :=
      reverse_eq_nil_iff.mp h
    exact dropWhile_eq_nil_iff.mp hdrop c (mem_reverse.mpr hc)
  rw [all_eq_true]
  refine dropWhile_eq_nil_iff.mp (eq_nil_iff_forall_not_mem.mpr fun c hc => ?_)
  have hne : cs.dropWhile isBlank ≠ [] := ne_nil_of_mem hc
  have hhead := hrest _ (head_mem hne)
  rw [head_dropWhile_not isBlank hne] at hhead
  cases hhead

theorem Json.isText_of_trimmed {j : Json} {text : String} (h : j.trimmed = .ok text)
    (hne : ¬text.isEmpty) : j.IsText := by
  unfold trimmed at h
  split at h
  · exact ⟨_, rfl⟩
  · split at h
    · cases h
      exact absurd rfl hne
    · cases h

theorem Guard.isEmpty_trim_of_parse {guard : String} {e : Expr} (h : parse guard = .ok e) :
    (Text.trim guard).isEmpty = false := by
  rw [Bool.eq_false_iff]
  intro hempty
  have hchars : Text.trimChars guard.toList = [] := by
    simpa [Text.trim] using hempty
  simp only [parse, Text.all_isBlank_of_trimChars hchars, if_true] at h
  cases h

theorem Tree.mem_loopGuards_iff {body : Tree} {guards : List String}
    (h : body.loopGuards = .ok guards) {guard : String} {e : Expr}
    (hparse : Guard.parse guard = .ok e) :
    guard ∈ guards ↔
      ∃ loop ∈ body.walk, loop.kind.isLoop ∧ loop.label.condition = .str guard := by
  rw [(filterMapM_eq_ok h).2]
  simp only [mem_filter, and_assoc]
  refine exists_congr fun loop => and_congr_right fun _ => and_congr_right fun _ => ?_
  constructor
  · intro hloop
    obtain ⟨text, htext, hloop⟩ := bind_eq_ok hloop
    split at hloop
    · cases hloop
    · rename_i hblank
      cases hloop
      obtain ⟨s, hs⟩ := Json.isText_of_trimmed htext hblank
      rw [hs]
      rfl
  · intro hcondition
    rw [hcondition]
    show (if (Text.trim guard).isEmpty then _ else _) = _
    rw [Guard.isEmpty_trim_of_parse hparse]
    rfl

def Expr.KeepsOn (e : Expr) (x : String) (v : ℤ) : Prop :=
  ∀ p ∈ e.comparisonsOn x, ∀ q, p.2.value? = some (.fin q) → p.1.Keeps q v

theorem BaseType.eq_bool_of_sort {b : BaseType} (h : b.sort = .bool) : b = .bool := by
  cases b with
  | bool => rfl
  | _ => cases h

namespace Declarations

open Domain

variable {d : Declarations} {aliases : AliasTable} {f : FunctionDecl} {body : Tree} {x : String}
  {b : BaseType} {e : Expr} {declared t : Table Json Domain}

theorem numeric_of_guardBounds {doms : List Domain} (he : e.HasNumbers)
    (h : guardBounds e (.str x) b = .ok doms) :
    ∀ dom ∈ doms, dom.IsNumeric ∧ dom.variableName = .str x := by
  intro dom hdom
  obtain ⟨p, hp, hbound⟩ := ((filterMapM_eq_ok h).2 dom).mp hdom
  exact numeric_of_loopBound (he.of_mem_comparisonsOn hp) hbound

theorem guardBounds_admit_iff {doms : List Domain} (hint : b.isInteger)
    (h : guardBounds e (.str x) b = .ok doms) (v : ℤ) :
    (∀ dom ∈ doms, dom.Admits (.fin v)) ↔ e.KeepsOn x v := by
  obtain ⟨hall, hmem⟩ := filterMapM_eq_ok h
  simp only [hint] at hall hmem
  constructor
  · intro hadmits p hp
    obtain ⟨bound, hbound⟩ := hall p hp
    refine (loopBound_admits_iff hbound).mp ?_
    rintro dom rfl
    exact hadmits dom ((hmem dom).mpr ⟨p, hp, hbound⟩)
  · intro hkeeps dom hdom
    obtain ⟨p, hp, hbound⟩ := (hmem dom).mp hdom
    exact (loopBound_admits_iff hbound).mpr (hkeeps p hp) dom rfl

theorem exists_guardBounds_iff :
    (∃ doms, guardBounds e (.str x) b = .ok doms) ↔
      (b.isInteger → ∀ q ∈ e.comparisonsOn x, CanBound q.1 q.2) := by
  constructor
  · rintro ⟨doms, hdoms⟩ hint q hq
    exact exists_loopBound_iff.mp ((filterMapM_eq_ok hdoms).1 q hq) hint
  · intro h
    exact exists_filterMapM_eq_ok fun q hq => exists_loopBound_iff.mpr fun hint => h hint q hq

/-- The type of a variable is known, and a guard compares an integer by order with finite numbers
only. -/
def CanNarrow (d : Declarations) (aliases : AliasTable) (e : Expr) (p : Json × Json) : Prop :=
  ∃ base, d.scalarBase? aliases p.2 = .ok base ∧ ∀ b x, base = some b → b.sort ≠ .bool →
    p.1 = .str x → b.isInteger → ∀ q ∈ e.comparisonsOn x, CanBound q.1 q.2

/-- An integer is within the bounds of a guard on a variable. -/
def Within (d : Declarations) (aliases : AliasTable) (e : Expr) (p : Json × Json) (x : String)
    (v : ℤ) : Prop :=
  ∀ b doms, d.scalarBase? aliases p.2 = .ok (some b) → b.sort ≠ .bool → p.1 = .str x →
    guardBounds e (.str x) b = .ok doms → ∀ dom ∈ doms, dom.Admits (.fin v)

theorem narrowsIf_foldEntry (he : e.HasNumbers) (h : AreNumeric t) (p : Json × Json) :
    NarrowsIf (d.CanNarrow aliases e p) (d.Within aliases e p) t (do
      match (← d.scalarBase? aliases p.2).filter fun b : BaseType => b.sort ≠ .bool with
      | none => return t
      | some b => (← guardBounds e p.1 b).foldlM narrow t) := by
  cases hbase : d.scalarBase? aliases p.2 with
  | error err => exact .error fun ⟨_, hok, _⟩ => nomatch hbase.symm.trans hok
  | ok base =>
    rw [ok_bind]
    cases hfilter : base.filter fun b => b.sort ≠ .bool with
    | none =>
      have hsort : ∀ b, base = some b → ¬b.sort ≠ .bool := by simpa using hfilter
      refine .ok ⟨⟨base, hbase, fun b x hb hb' => absurd hb' (hsort b hb)⟩, h.narrows_refl ?_⟩
      intro x v b doms hb hb'
      exact absurd hb' (hsort b (Except.ok.inj (hbase.symm.trans hb)))
    | some b =>
      obtain ⟨rfl, hsort⟩ := Option.filter_eq_some_iff.mp hfilter
      obtain ⟨name, type⟩ := p
      cases name with
      | str y =>
        dsimp only
        cases hdoms : guardBounds e (.str y) b with
        | error err =>
          refine .error fun ⟨_, hok, hall⟩ => ?_
          cases hbase.symm.trans hok
          obtain ⟨doms, hok⟩ :=
            exists_guardBounds_iff.mpr (hall b y rfl (of_decide_eq_true hsort) rfl)
          cases hdoms.symm.trans hok
        | ok doms =>
          have hnumeric := numeric_of_guardBounds he hdoms
          have hfold : NarrowsIf _ _ t (doms.foldlM narrow t) := h.foldlM fun dom hdom t ht =>
            (ht.ends_narrow (hnumeric dom hdom).1 (hnumeric dom hdom).2).imp
              (fun _ h => ⟨trivial, h⟩) fun _ => False.elim
          rw [ok_bind]
          refine hfold.imp (fun t' ⟨_, ht'⟩ => ⟨⟨some b, hbase, ?_⟩, ht'.areNumeric, ?_⟩) ?_
          · rintro _ _ ⟨⟩ - ⟨⟩
            exact exists_guardBounds_iff.mp ⟨doms, hdoms⟩
          · intro x v
            rw [ht'.admitted_iff]
            refine and_congr_right fun _ => ⟨?_, fun hv dom hdom hx => ?_⟩
            · rintro hv b' doms' hb' - ⟨⟩ hdoms'
              cases hbase.symm.trans hb'
              cases hdoms.symm.trans hdoms'
              exact fun dom hdom => hv dom hdom rfl
            · exact hv b doms hbase (of_decide_eq_true hsort) (hx ▸ rfl) (hx ▸ hdoms) dom hdom
          · exact fun _ hnot => absurd (fun _ _ => trivial) hnot
      | null | bool | int | real | arr | obj =>
        exact .ok ⟨⟨_, hbase, fun _ _ _ _ => nofun⟩, h.narrows_refl fun _ _ _ _ _ _ => nofun⟩

theorem narrowsIf_foldGuards (types : VariableTypes) (h : AreNumeric t) (guards : List String) :
    NarrowsIf (∀ guard ∈ guards, ∀ e, Guard.parse guard = .ok e → ∀ p ∈ types.entries,
        d.CanNarrow aliases e p)
      (fun x v => ∀ guard ∈ guards, ∀ e, Guard.parse guard = .ok e → ∀ p ∈ types.entries,
        d.Within aliases e p x v)
      t (guards.foldlM (d.foldGuard aliases types) t) := by
  refine h.foldlM fun guard _ t ht => ?_
  unfold foldGuard
  cases hparse : Guard.parse guard with
  | error err => exact .ok ⟨nofun, ht.narrows_refl nofun⟩
  | ok e =>
    simp only [Except.ok.injEq, forall_eq']
    exact ht.foldlM fun p _ t ht => narrowsIf_foldEntry (Guard.hasNumbers_of_parse hparse) ht p

theorem isNumeric_of_declaredDomain {type : Json} {dom : Domain}
    (h : d.declaredDomain aliases (.str x) type = .ok (some dom)) :
    dom.IsNumeric ∧ dom.variableName = .str x := by
  obtain ⟨r?, -, h⟩ := bind_eq_ok h
  cases r? with
  | none => cases h
  | some r =>
    dsimp only at h
    split at h
    · cases h
    split at h
    · obtain ⟨vs, hvs, h⟩ := bind_eq_ok h
      cases h
      refine ⟨⟨⟨x, rfl⟩, .inl rfl, .inl rfl, fun values hvalues j hj => ?_, .inl rfl, .inl rfl,
        ⟨_, rfl⟩⟩, rfl⟩
      cases hvalues
      obtain ⟨p, hp, rfl⟩ := mem_map.mp hj
      exact Json.isNumber_ofScalar (EnumDecl.isSome_value?_of_evaluateFrom
        (fun _ hc => absurd hc not_mem_nil) hvs p hp)
    · cases h
    · obtain ⟨bounds, -, h⟩ := bind_eq_ok h
      split at h
      · cases h
      · obtain ⟨own, -, h⟩ := bind_eq_ok h
        split at h
        · obtain ⟨dom', hdom', h⟩ := bind_eq_ok h
          cases h
          exact isNumeric_of_intersect_range hdom'
        · cases h
          exact ⟨⟨⟨x, rfl⟩, .inr rfl, .inr rfl, nofun, .inl rfl, .inl rfl, ⟨_, rfl⟩⟩, rfl⟩

theorem areNumeric_of_domains (h : d.domains aliases f none = .ok declared) :
    AreNumeric declared := by
  obtain ⟨types, -, h⟩ := bind_eq_ok h
  obtain ⟨t, hfold, h⟩ := bind_eq_ok h
  cases h
  refine (Ends.foldlM (P := fun _ => True) (fun t ht p _ => ?_) nofun).of_eq_ok _ hfold
  refine (Ends.any _).with_eq.bind fun dom hdom => .ok ?_
  cases dom with
  | none => exact ht
  | some dom => exact ht.put fun x hx => isNumeric_of_declaredDomain (hx ▸ hdom)

theorem domains_some (d : Declarations) (aliases : AliasTable) (f : FunctionDecl) (body : Tree) :
    d.domains aliases f (some body) = (d.domains aliases f none >>= fun declared =>
      body.loopGuards >>= (·.foldlM (d.foldGuard aliases f.properLocals) declared)) := by
  unfold domains
  simp only [bind_assoc, pure_bind]

/-- An integer is admitted for a local exactly if its type admits it and every comparison of a loop
keeps it; for a truth value the loops do not count. -/
theorem exists_admitted_iff {type : Json} (hlocal : f.properLocals.get? (.str x) = some type)
    (hbase : d.scalarBase? aliases type = .ok (some b)) (hint : b.isInteger)
    (ht : d.domains aliases f (some body) = .ok t) :
    ∃ declared, d.domains aliases f none = .ok declared ∧ ∀ v : ℤ, Admitted t x v ↔
      Admitted declared x v ∧
        (b.sort ≠ .bool → ∀ op q, body.LoopCompares x op q → op.Keeps q v) := by
  rw [domains_some] at ht
  obtain ⟨declared, hdeclared, ht⟩ := bind_eq_ok ht
  obtain ⟨guards, hguards, ht⟩ := bind_eq_ok ht
  obtain ⟨hcan, hnarrows⟩ :=
    (narrowsIf_foldGuards _ (areNumeric_of_domains hdeclared) guards).of_eq_ok t ht
  have hkeys := Table.pairwise_keys_ofList
    ((f.locals.filter fun v => (f.parameter? v.name).isNone).map fun v => (v.name, v.type))
  refine ⟨declared, hdeclared, fun v => (hnarrows.admitted_iff x v).trans ?_⟩
  refine and_congr_right fun _ => ⟨?_, ?_⟩
  · rintro hv hsort op q ⟨loop, hloop, hkind, guard, e, c, hcondition, hparse, hmem, hq⟩
    have hguard := (Tree.mem_loopGuards_iff hguards hparse).mpr ⟨loop, hloop, hkind, hcondition⟩
    obtain ⟨k, hk, hentry⟩ := Table.exists_mem_of_get? hlocal
    have hname := (Json.isolated_str x _).1.mp hk
    obtain ⟨base, hbase', hdoms⟩ := hcan guard hguard e hparse _ hentry
    cases hbase'.symm.trans hbase
    obtain ⟨doms, hdoms⟩ := exists_guardBounds_iff.mpr (hdoms b x rfl hsort hname)
    exact (guardBounds_admit_iff hint hdoms v).mp
      (hv guard hguard e hparse _ hentry b doms hbase hsort hname hdoms) (op, c) hmem q hq
  · rintro hv guard hguard e hparse ⟨name, type'⟩ hp b' doms hbase' hsort rfl hdoms
    obtain ⟨loop, hloop, hkind, hcondition⟩ := (Tree.mem_loopGuards_iff hguards hparse).mp hguard
    have hget := Table.get?_of_mem_entries hkeys ((Json.isolated_str x _).1.mpr rfl) hp
    cases hget.symm.trans hlocal
    cases hbase'.symm.trans hbase
    exact (guardBounds_admit_iff hint hdoms v).mpr fun p hp q hq =>
      hv hsort p.1 q ⟨loop, hloop, hkind, guard, e, p.2, hcondition, hparse, hp, hq⟩

/-- A loop that compares an integer local can be left within the domain of the local exactly if the
first value that fails the comparison is of the declared type and every comparison of a loop keeps
it.  The domain of a truth value is that of its type. -/
theorem domains_admit_loop_exit_iff {type : Json}
    (hlocal : f.properLocals.get? (.str x) = some type)
    (hbase : d.scalarBase? aliases type = .ok (some b)) (hint : b.isInteger = true)
    (ht : d.domains aliases f (some body) = .ok t) :
    ∃ declared, d.domains aliases f none = .ok declared ∧
      (b = .bool → ∀ v, Admitted t x v ↔ Admitted declared x v) ∧
      (b ≠ .bool → ∀ op q e, body.LoopCompares x op q → op.exit? q = some e →
        ((∃ v : ℤ, Admitted t x v ∧ ¬op.Holds v q) ↔
          Admitted declared x e ∧ ∀ op' q', body.LoopCompares x op' q' → op'.Keeps q' e)) := by
  obtain ⟨declared, hdeclared, hiff⟩ := exists_admitted_iff hlocal hbase hint ht
  refine ⟨declared, hdeclared, ?_, fun hbool op q e hcompares hexit => ⟨?_, fun h => ?_⟩⟩
  · rintro rfl v
    exact (hiff v).trans (and_iff_left fun hsort => absurd rfl hsort)
  · have hsort : b.sort ≠ .bool := fun h => hbool (BaseType.eq_bool_of_sort h)
    rintro ⟨v, hv, hfails⟩
    obtain ⟨hdeclared, hkeeps⟩ := (hiff v).mp hv
    -- The comparison itself leaves nothing beyond its exit.
    have hve : v = e := (hkeeps hsort op q hcompares e hexit).resolve_left hfails
    exact hve ▸ ⟨hdeclared, hkeeps hsort⟩
  · exact ⟨e, (hiff e).mpr ⟨h.1, fun _ => h.2⟩, BinaryOp.not_holds_of_exit? hexit⟩

def counter : FunctionDecl :=
  { FunctionDecl.named (.str "count") with locals := [.named (.str "i") (.str "int")] }

def spin (guard : String) : Tree :=
  .node ⟨.whileLoop, .null, .null, .null, .str guard, .null, .null, .null, .null⟩ []

def twoLoops : Tree :=
  .node ⟨.compound, .null, .null, .null, .null, .null, .null, .null, .null⟩
    [spin "i < 10", spin "i < 5"]

theorem mem_walk_twoLoops {loop : Tree} :
    loop ∈ twoLoops.walk ↔ loop = twoLoops ∨ loop = spin "i < 10" ∨ loop = spin "i < 5" := by
  have hwalk : twoLoops.walk = [twoLoops, spin "i < 10", spin "i < 5"] := rfl
  rw [hwalk]
  simp

theorem parse_ten : Guard.parse "i < 10" = .ok (.binary .lt (.name "i") (.int 10)) := by cbv

theorem parse_five : Guard.parse "i < 5" = .ok (.binary .lt (.name "i") (.int 5)) := by cbv

theorem comparisonsOn_lt (n : ℤ) :
    (Expr.binary .lt (.name "i") (.int n)).comparisonsOn "i" = [(.lt, .int n)] := by
  rfl

theorem loopCompares_twoLoops {op : BinaryOp} {q : ℚ} :
    twoLoops.LoopCompares "i" op q ↔ op = .lt ∧ (q = 10 ∨ q = 5) := by
  constructor
  · rintro ⟨loop, hloop, hkind, guard, e, c, hcondition, hparse, hmem, hq⟩
    rcases mem_walk_twoLoops.mp hloop with rfl | rfl | rfl
    · cases hkind
    · cases hcondition
      cases parse_ten.symm.trans hparse
      rw [comparisonsOn_lt, mem_singleton, Prod.mk.injEq] at hmem
      obtain ⟨rfl, rfl⟩ := hmem
      exact ⟨rfl, .inl (Extended.fin.inj (Option.some.inj hq)).symm⟩
    · cases hcondition
      cases parse_five.symm.trans hparse
      rw [comparisonsOn_lt, mem_singleton, Prod.mk.injEq] at hmem
      obtain ⟨rfl, rfl⟩ := hmem
      exact ⟨rfl, .inr (Extended.fin.inj (Option.some.inj hq)).symm⟩
  · rintro ⟨rfl, rfl | rfl⟩
    · exact ⟨_, mem_walk_twoLoops.mpr (.inr (.inl rfl)), rfl, _, _, .int 10, rfl, parse_ten,
        mem_singleton.mpr rfl, rfl⟩
    · exact ⟨_, mem_walk_twoLoops.mpr (.inr (.inr rfl)), rfl, _, _, .int 5, rfl, parse_five,
        mem_singleton.mpr rfl, rfl⟩

theorem properLocals_counter : counter.properLocals.get? (.str "i") = some (.str "int") := rfl

theorem scalarBase?_counter :
    (empty .lp64).scalarBase? (.empty .lp64) (.str "int") = .ok (some .int) :=
  eq_ok_of_toOption (by decide +kernel)

theorem exists_domains_twoLoops :
    ∃ t, (empty .lp64).domains (.empty .lp64) counter (some twoLoops) = .ok t := by
  have hsome : ((empty .lp64).domains (.empty .lp64) counter (some twoLoops)).toOption.isSome := by
    decide +kernel
  exact (Option.isSome_iff_exists.mp hsome).imp fun _ => eq_ok_of_toOption

theorem admitted_counter {declared : Table Json Domain}
    (h : (empty .lp64).domains (.empty .lp64) counter none = .ok declared) :
    Admitted declared "i" 10 ∧ Admitted declared "i" 5 := by
  have heval (v : ℤ) : (((((empty .lp64).domains (.empty .lp64) counter none).toOption.bind
      fun t => t.get? (.str "i")).map fun dom => (dom.admits (.int v)).toOption)
        = some (some true)) → Admitted declared "i" v := by
    intro hv dom hdom
    rw [h] at hv
    simp only [Except.toOption, Option.bind_some, hdom, Option.map_some] at hv
    exact eq_ok_of_toOption (Option.some.inj hv)
  exact ⟨heval 10 (by decide +kernel), heval 5 (by decide +kernel)⟩

theorem domains_admit_loop_exit_iff_twoLoops :
    ∃ declared t, (empty .lp64).domains (.empty .lp64) counter none = .ok declared ∧
      (empty .lp64).domains (.empty .lp64) counter (some twoLoops) = .ok t ∧
      twoLoops.LoopCompares "i" .lt 5 ∧ ∃ v : ℤ, Admitted t "i" v ∧ ¬BinaryOp.lt.Holds v 5 := by
  obtain ⟨t, ht⟩ := exists_domains_twoLoops
  obtain ⟨declared, hdeclared, -, hexit⟩ :=
    domains_admit_loop_exit_iff properLocals_counter scalarBase?_counter rfl ht
  have hfive : twoLoops.LoopCompares "i" .lt 5 := loopCompares_twoLoops.mpr ⟨rfl, .inr rfl⟩
  refine ⟨declared, t, hdeclared, ht, hfive, (hexit nofun .lt 5 5 hfive rfl).mpr ?_⟩
  refine ⟨(admitted_counter hdeclared).2, fun op q hcompares => ?_⟩
  obtain ⟨rfl, rfl | rfl⟩ := loopCompares_twoLoops.mp hcompares
  · exact BinaryOp.keeps_lt_iff.mpr (by decide)
  · exact BinaryOp.keeps_lt_iff.mpr (by decide)

/-- The first value that fails a comparison may be cut off by the bound of another loop, so that the
domain leaves no exit that the type had. -/
theorem domains_cut_off_loop_exit :
    ∃ declared t, (empty .lp64).domains (.empty .lp64) counter none = .ok declared ∧
      (empty .lp64).domains (.empty .lp64) counter (some twoLoops) = .ok t ∧
      twoLoops.LoopCompares "i" .lt 10 ∧
      (∃ v : ℤ, Admitted declared "i" v ∧ ¬BinaryOp.lt.Holds v 10) ∧
      ¬∃ v : ℤ, Admitted t "i" v ∧ ¬BinaryOp.lt.Holds v 10 := by
  obtain ⟨t, ht⟩ := exists_domains_twoLoops
  obtain ⟨declared, hdeclared, hiff⟩ :=
    exists_admitted_iff properLocals_counter scalarBase?_counter rfl ht
  refine ⟨declared, t, hdeclared, ht, loopCompares_twoLoops.mpr ⟨rfl, .inl rfl⟩,
    ⟨10, (admitted_counter hdeclared).1, lt_irrefl _⟩, ?_⟩
  rintro ⟨v, hv, hfails⟩
  have hkept : BinaryOp.lt.Keeps 5 v :=
    ((hiff v).mp hv).2 nofun .lt 5 (loopCompares_twoLoops.mpr ⟨rfl, .inr rfl⟩)
  have hle : v ≤ 5 := BinaryOp.keeps_lt_iff.mp hkept
  apply hfails
  have hcast : (v : ℚ) ≤ 5 := by exact_mod_cast hle
  exact lt_of_le_of_lt hcast (by norm_num)

/-! ## When domains are found -/

theorem foldGuards_of_unread {types : VariableTypes} {guards : List String}
    (h : ∀ guard ∈ guards, ∀ e, Guard.parse guard ≠ .ok e) :
    guards.foldlM (d.foldGuard aliases types) t = .ok t := by
  induction guards with
  | nil => rfl
  | cons guard guards ih =>
    obtain ⟨hguard, hrest⟩ := forall_mem_cons.mp h
    rw [foldlM_cons, foldGuard]
    cases hparse : Guard.parse guard with
    | ok e => exact absurd hparse (hguard e)
    | error err => exact ih hrest

/-- With a body, domains are found exactly if they are without one, the guards of the loops are
texts, and no guard that reads compares an integer local by order with an infinite number.  Guards
that do not read change nothing. -/
theorem domains_found_iff (d : Declarations) (aliases : AliasTable) (f : FunctionDecl)
    (body : Tree) :
    ((∃ t, d.domains aliases f (some body) = .ok t) ↔
      ∃ declared guards, d.domains aliases f none = .ok declared ∧ body.loopGuards = .ok guards ∧
        ∀ guard ∈ guards, ∀ e, Guard.parse guard = .ok e → ∀ p ∈ f.properLocals.entries,
          d.CanNarrow aliases e p) ∧
    ∀ guards, body.loopGuards = .ok guards → (∀ guard ∈ guards, ∀ e, Guard.parse guard ≠ .ok e) →
      d.domains aliases f (some body) = d.domains aliases f none := by
  rw [domains_some]
  refine ⟨⟨?_, ?_⟩, fun guards hguards hnone => ?_⟩
  · rintro ⟨t, ht⟩
    obtain ⟨declared, hdeclared, ht⟩ := bind_eq_ok ht
    obtain ⟨guards, hguards, ht⟩ := bind_eq_ok ht
    exact ⟨declared, guards, hdeclared, hguards,
      ((narrowsIf_foldGuards _ (areNumeric_of_domains hdeclared) guards).of_eq_ok t ht).1⟩
  · rintro ⟨declared, guards, hdeclared, hguards, hcan⟩
    rw [hdeclared, ok_bind, hguards, ok_bind]
    cases hfold : guards.foldlM (d.foldGuard aliases f.properLocals) declared with
    | ok t => exact ⟨t, rfl⟩
    | error err =>
      exact absurd hcan
        ((narrowsIf_foldGuards _ (areNumeric_of_domains hdeclared) guards).of_eq_error err hfold)
  · cases d.domains aliases f none with
    | error err => rfl
    | ok declared => rw [ok_bind, hguards, ok_bind, foldGuards_of_unread hnone]

/-- A comparison with an infinite literal leaves a function without domains. -/
theorem domains_fail_at_infinite_bound :
    ((empty .lp64).domains (.empty .lp64) counter none).toOption.isSome = true ∧
      ((empty .lp64).domains (.empty .lp64) counter (some (spin "i < 1e999"))).toOption = none := by
  decide +kernel

end Declarations

end Branchwise
