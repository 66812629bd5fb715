import Branchwise.Proofs.Data.Outcome
import Branchwise.Proofs.Guard.Meaning

/-!
# Lowering preserves meaning

The term of a guard has the C value of the guard whenever evaluation meets no division by zero, and
its side conditions then hold; if evaluation divides by zero, a side condition fails.  The term of
an operand of `&&` or `||` that is left out may hold an undefined division, as its side conditions
then hold vacuously.
-/

namespace Branchwise

open AnyTerm Value Lowered NumberPair Branchwise.Expr Lowering

/-! ## The reading of terms -/

structure Interpretation (K : Type) extends InputValues K where
  intByZero : Int → Int
  realByZero : K → K

abbrev TermSort.Domain (K : Type) : TermSort → Type
  | int => Int
  | real => K
  | bool => Bool

section Reading

variable {K : Type} [Field K] [LinearOrder K]

namespace Interpretation

def var (I : Interpretation K) : (s : TermSort) → String → s.Domain K
  | .int, x => I.int x
  | .real, x => I.real x
  | .bool, x => I.bool x

def euclid (I : Interpretation K) (a b : Int) : Int := if b = 0 then I.intByZero a else a / b

/-- The quotient of two integers, by Euclidean division of the dividend without its sign. -/
def quot (I : Interpretation K) (a b : Int) : Int :=
  if 0 ≤ a then I.euclid a b else -I.euclid (-a) b

def ratio (I : Interpretation K) (a b : K) : K := if b = 0 then I.realByZero a else a / b

omit [Field K] [LinearOrder K] in
theorem quot_eq_tdiv (I : Interpretation K) (a : Int) {b : Int} (hb : b ≠ 0) :
    I.quot a b = a.tdiv b := by
  by_cases ha : 0 ≤ a
  · rw [quot, if_pos ha, euclid, if_neg hb, Int.tdiv_eq_ediv_of_nonneg ha]
  · have hneg : 0 ≤ -a := by omega
    rw [quot, if_neg ha, euclid, if_neg hb, ← Int.tdiv_eq_ediv_of_nonneg hneg, Int.neg_tdiv,
      neg_neg]

end Interpretation

def Comparison.holds {α : Type} [LinearOrder α] : Comparison → α → α → Bool
  | eq, a, b => decide (a = b)
  | ne, a, b => decide (a ≠ b)
  | lt, a, b => decide (a < b)
  | le, a, b => decide (a ≤ b)
  | gt, a, b => decide (b < a)
  | ge, a, b => decide (b ≤ a)

def ArithOp.apply {α : Type} [Ring α] : ArithOp → α → α → α
  | add, a, b => a + b
  | sub, a, b => a - b
  | mul, a, b => a * b

@[simp]
def Term.denote (I : Interpretation K) : {s : TermSort} → Term s → s.Domain K
  | s, var _ x => I.var s x
  | _, int n => n
  | _, real q => (q : K)
  | _, bool b => b
  | _, toReal t => ((t.denote I : Int) : K)
  | _, ite c t e => if c.denote I then t.denote I else e.denote I
  | _, negInt t => Int.neg (t.denote I)
  | _, negReal t => -(t.denote I : K)
  | _, intOp op a b => op.apply (α := Int) (a.denote I) (b.denote I)
  | _, realOp op a b => op.apply (α := K) (a.denote I) (b.denote I)
  | _, quot a b => I.quot (a.denote I) (b.denote I)
  | _, rem a b => (a.denote I : Int) - (b.denote I : Int) * I.quot (a.denote I) (b.denote I)
  | _, ratio a b => I.ratio (a.denote I) (b.denote I)
  | _, intRel r a b => r.holds (α := Int) (a.denote I) (b.denote I)
  | _, realRel r a b => r.holds (α := K) (a.denote I) (b.denote I)
  | _, not t => !(t.denote I)
  | _, and a b => a.denote I && b.denote I
  | _, or a b => a.denote I || b.denote I
  | _, implies a b => !(a.denote I) || b.denote I
  | _, iff a b => (a.denote I : Bool) == b.denote I

def AnyTerm.denote (I : Interpretation K) : AnyTerm → Value K
  | int t => .int (t.denote I)
  | real t => .real (t.denote I)
  | bool t => .bool (t.denote I)

/-! ## Coercions -/

variable (I : Interpretation K)

namespace AnyTerm

theorem denote_var (s : TermSort) (x : String) : (var s x).denote I = I.get s x := by
  cases s <;> rfl

theorem denote_asBool (t : AnyTerm) : t.asBool.denote I = (t.denote I).truth := by
  cases t with
  | int t => rfl
  | real t => simp [asBool, denote, Comparison.holds, truth]
  | bool t => rfl

theorem denote_asNumber (t : AnyTerm) : t.asNumber.denote I = (t.denote I).number := by
  cases t <;> rfl

theorem denote_asReal (t : AnyTerm) : t.asReal.denote I = (t.denote I).toReal := by
  cases t with
  | int t => rfl
  | real t => rfl
  | bool t =>
    simp only [asReal, denote, Term.denote, toReal]
    split <;> simp

end AnyTerm

def NumberPair.denoteWith {α : Type} (I : Interpretation K) (onInt : Int → Int → α)
    (onReal : K → K → α) : NumberPair → α
  | int a b => onInt (a.denote I) (b.denote I)
  | real a b => onReal (a.denote I) (b.denote I)

theorem AnyTerm.denote_promote {α : Type} (onInt : Int → Int → α)
    (onReal : K → K → α) (l r : AnyTerm) :
    (l.promote r).denoteWith I onInt onReal
      = onNumbers onInt onReal (l.denote I) (r.denote I) := by
  have hl := l.denote_asNumber I
  have hr := r.denote_asNumber I
  rw [onNumbers, ← hl, ← hr]
  unfold promote
  cases l.asNumber <;> cases r.asNumber <;>
    simp only [denoteWith, denote_asReal] <;> rfl

theorem NumberPair.denote_compare (c : Comparison) (p : NumberPair) :
    (p.compare c).denote I = p.denoteWith I (fun m n => c.holds m n) (fun x y => c.holds x y) := by
  cases p <;> rfl

theorem NumberPair.denote_combine (op : ArithOp) (p : NumberPair) : (p.combine op).denote I
      = p.denoteWith I (fun m n => .int (op.apply m n)) (fun x y => .real (op.apply x y)) := by
  cases p <;> rfl

/-! ## Side conditions -/

def AllHold (I : Interpretation K) (sides : List (Term .bool)) : Prop :=
  ∀ s ∈ sides, s.denote I = true

@[simp] theorem allHold_nil (I : Interpretation K) : AllHold I [] := by
  simp [AllHold]

@[simp] theorem allHold_append (I : Interpretation K) (ss ts : List (Term .bool)) :
    AllHold I (ss ++ ts) ↔ AllHold I ss ∧ AllHold I ts := by
  simp only [AllHold, List.mem_append]
  constructor
  · exact fun h => ⟨fun s hs => h s (.inl hs), fun s hs => h s (.inr hs)⟩
  · rintro ⟨hss, hts⟩ s (hs | hs)
    · exact hss s hs
    · exact hts s hs

theorem not_allHold_iff (sides : List (Term .bool)) :
    ¬ AllHold I sides ↔ ∃ s ∈ sides, s.denote I = false := by
  simp [AllHold]

theorem denote_all (sides : List (Term .bool)) :
    (Term.all sides).denote I = true ↔ AllHold I sides := by
  induction sides with
  | nil => simp [Term.all]
  | cons t ts ih =>
    cases ts with
    | nil => simp [Term.all, AllHold]
    | cons u us =>
      rw [Term.all, Term.denote, Bool.and_eq_true, ih]
      · simp [AllHold]
      · simp

theorem allHold_whenEvaluated (op : BinaryOp) (left : AnyTerm) (sides : List (Term .bool)) :
    AllHold I (whenEvaluated op left sides) ↔
      (decided? op (left.denote I) = none → AllHold I sides) := by
  have hone (t : Term .bool) : AllHold I [t] ↔ t.denote I = true := by simp [AllHold]
  by_cases hempty : sides.isEmpty
  · have hnil : sides = [] := List.isEmpty_iff.1 hempty
    simp [whenEvaluated, hnil]
  · unfold whenEvaluated
    rw [if_neg hempty]
    have hleft := left.denote_asBool I
    cases op with
    | and =>
      rw [hone, Term.denote, Bool.or_eq_true, denote_all, hleft]
      cases htruth : (left.denote I).truth <;> simp [decided?, htruth]
    | or =>
      rw [hone, Term.denote, Term.denote, Bool.or_eq_true, denote_all, hleft]
      cases htruth : (left.denote I).truth <;> simp [decided?, htruth]
    | _ => simp [decided?]

/-! ## Operators and operands -/

/-- Whether a lowered guard agrees with an outcome of evaluation: with a value, its side conditions
hold and its term has the value; without one, a divisor was zero and a side condition fails. -/
def Lowered.Agrees (I : Interpretation K) (l : Lowered) : Except EvaluationFault (Value K) → Prop
  | .ok v => (∀ s ∈ l.sides, s.denote I = true) ∧ l.term.denote I = v
  | .error fault => fault = .divisionByZero ∧ ∃ s ∈ l.sides, s.denote I = false

theorem Lowered.agrees_ok {I : Interpretation K} {t : AnyTerm} {v : Value K}
    (h : t.denote I = v) : Agrees I ⟨t, []⟩ (.ok v) :=
  ⟨allHold_nil I, h⟩

namespace Lowering

variable {t l r : AnyTerm} {whole : Expr} {op : BinaryOp}

theorem ofBinary_agrees {x : Binary64}
    (h : ofBinary x = .ok t) : Value.ofScalar (.real x) = .ok (t.denote I) := by
  unfold ofBinary at h
  cases hq : x.decimalValue? with
  | none => simp [hq] at h
  | some q =>
    rw [hq] at h
    cases h
    simp [Value.ofScalar, hq, denote]

theorem ofInt_agrees {n : Int} (h : ofInt n = .ok t) : t.denote I = .int n := by
  unfold ofInt at h
  split at h
  · cases h
    rfl
  · cases h

theorem ofScalar_agrees {x : Scalar}
    (h : ofScalar x = .ok t) : Value.ofScalar x = .ok (t.denote I) := by
  cases x with
  | bool b =>
    cases h
    rfl
  | int n =>
    rw [ofInt_agrees I h]
    rfl
  | real x => exact ofBinary_agrees I h

theorem ofConstant_agrees {c : Json}
    (h : ofConstant c = .ok t) : Value.ofConstant c = .ok (t.denote I) := by
  unfold ofConstant at h
  split at h
  · rename_i s
    cases hq : Number.numeral? s with
    | none => simp [hq] at h
    | some q =>
      rw [hq] at h
      cases h
      simp [Value.ofConstant, hq, denote]
  · rename_i hstr
    cases hx : c.scalar? with
    | none => simp [hx] at h
    | some x =>
      rw [hx] at h
      unfold Value.ofConstant
      split
      · exact absurd rfl (hstr _)
      · rw [hx]
        exact ofScalar_agrees I h

theorem denote_negative (t : AnyTerm) : (negative t).denote I = (t.denote I).neg := by
  have hnum := t.denote_asNumber I
  rw [neg, ← hnum]
  unfold negative
  cases t.asNumber with
  | int t => rfl
  | real t => rfl
  | bool t => simp only [denote, Term.denote, denote_asReal]

theorem division_agrees {t : Lowered} (h : division whole false (l.promote r) = .ok t) :
    t.Agrees I ((l.denote I).div (r.denote I)) := by
  rw [div, ← denote_promote]
  cases hp : l.promote r with
  | int a b =>
    rw [hp] at h
    cases h
    by_cases hb : b.denote I = 0
    · simp [denoteWith, hb, Agrees, Term.denote, Comparison.holds]
    · simp [denoteWith, hb, Agrees, Term.denote, Comparison.holds,
        denote, I.quot_eq_tdiv _ hb]
  | real a b =>
    rw [hp] at h
    cases h
    by_cases hb : b.denote I = 0
    · simp [denoteWith, hb, Agrees, Term.denote, Comparison.holds]
    · simp [denoteWith, hb, Agrees, Term.denote, Comparison.holds,
        denote, Interpretation.ratio]

theorem remainder_agrees {t : Lowered} (h : division whole true (l.promote r) = .ok t) :
    t.Agrees I ((l.denote I).rem (r.denote I)) := by
  rw [rem, ← denote_promote]
  cases hp : l.promote r with
  | int a b =>
    rw [hp] at h
    cases h
    by_cases hb : b.denote I = 0
    · simp [denoteWith, hb, Agrees, Comparison.holds]
    · simp [denoteWith, hb, Agrees, Comparison.holds,
        denote, I.quot_eq_tdiv _ hb, Int.tmod_def]
  | real a b =>
    rw [hp] at h
    cases h

theorem eq_bool (a b : Bool) : (bool a : Value K).eq (.bool b) = (a == b) := by
  cases a <;> cases b <;> rfl

theorem compare_agrees (c : Comparison) (l r : AnyTerm) :
    Agrees I ⟨.bool ((l.promote r).compare c), []⟩
      (.ok (.bool (onNumbers (fun m n => c.holds m n) (fun x y => c.holds x y)
        (l.denote I) (r.denote I)))) := by
  refine agrees_ok ?_
  rw [denote, denote_compare, denote_promote]

theorem combine_agrees (op : ArithOp) (l r : AnyTerm) :
    Agrees I ⟨(l.promote r).combine op, []⟩
      (.ok (onNumbers (fun m n => .int (op.apply m n)) (fun x y => .real (op.apply x y))
        (l.denote I) (r.denote I))) := by
  refine agrees_ok ?_
  rw [denote_combine, denote_promote]

omit [LinearOrder K] in
theorem onNumbers_swap {α : Type} (onInt : Int → Int → α) (onReal : K → K → α) (a b : Value K) :
    onNumbers onInt onReal b a
      = onNumbers (fun m n => onInt n m) (fun x y => onReal y x) a b := by
  unfold onNumbers
  cases a.number <;> cases b.number <;> rfl

omit [LinearOrder K] in
theorem not_onNumbers (onInt : Int → Int → Bool) (onReal : K → K → Bool) (a b : Value K) :
    (!onNumbers onInt onReal a b)
      = onNumbers (fun m n => !onInt m n) (fun x y => !onReal x y) a b := by
  unfold onNumbers
  cases a.number <;> cases b.number <;> rfl

theorem binary_agrees {t : Lowered} (h : binary whole op l r = .ok t) :
    t.Agrees I (operate op (l.denote I) (r.denote I)) := by
  cases op with
  | or =>
    cases h
    refine agrees_ok ?_
    rw [denote, Term.denote, denote_asBool, denote_asBool]
  | and =>
    cases h
    refine agrees_ok ?_
    rw [denote, Term.denote, denote_asBool, denote_asBool]
  | eq =>
    -- two truth values are compared as such, everything else as numbers
    cases l <;> cases r <;> cases h
    case eq.bool.bool.refl a b =>
      exact agrees_ok (by simp [denote, Term.denote, eq_bool])
    all_goals exact compare_agrees I .eq _ _
  | ne =>
    have hne (l r : AnyTerm) : Agrees I ⟨.bool ((l.promote r).compare .ne), []⟩
        (operate .ne (l.denote I) (r.denote I)) := by
      rw [operate, eq, not_onNumbers]
      simpa only [Comparison.holds, decide_not] using compare_agrees I .ne l r
    cases l <;> cases r <;> cases h
    case ne.bool.bool.refl a b =>
      exact agrees_ok (by simp [denote, Term.denote, eq_bool])
    all_goals exact hne _ _
  | le =>
    cases h
    exact compare_agrees I .le l r
  | ge =>
    cases h
    rw [operate, le, onNumbers_swap]
    exact compare_agrees I .ge l r
  | lt =>
    cases h
    exact compare_agrees I .lt l r
  | gt =>
    cases h
    rw [operate, lt, onNumbers_swap]
    exact compare_agrees I .gt l r
  | add =>
    cases h
    exact combine_agrees I .add l r
  | sub =>
    cases h
    exact combine_agrees I .sub l r
  | mul =>
    cases h
    exact combine_agrees I .mul l r
  | div => exact division_agrees I h
  | rem => exact remainder_agrees I h

/-! ## Guards -/

theorem operate_of_decided {a v : Value K} (h : decided? op a = some v)
    (b : Value K) : operate op a b = .ok v := by
  cases op <;> cases htruth : a.truth <;> simp_all [decided?, operate]

theorem unary_agrees {I : Interpretation K} {f : AnyTerm → AnyTerm} {g : Value K → Value K}
    (hf : ∀ t, (f t).denote I = g (t.denote I)) {l : Lowered}
    {o : Except EvaluationFault (Value K)} (h : l.Agrees I o) :
    Agrees I ⟨f l.term, l.sides⟩ (o.map g) := by
  cases o with
  | error fault => exact h
  | ok v => exact ⟨h.1, by rw [hf, h.2]⟩

/-- The side conditions of a binary operator are those of the left operand, those of the right one
as far as it is evaluated, and its own. -/
theorem joined_agrees {I : Interpretation K} {l r t : Lowered}
    {left right : Except EvaluationFault (Value K)} (hl : l.Agrees I left) (hr : r.Agrees I right)
    (ht : t.Agrees I (operate op (l.term.denote I) (r.term.denote I))) :
    Agrees I ⟨t.term, l.sides ++ whenEvaluated op l.term r.sides ++ t.sides⟩
      (do
        let a ← left
        match decided? op a with
        | some v => return v
        | none =>
          let b ← right
          operate op a b) := by
  cases left with
  | error fault =>
    obtain ⟨hfault, hside⟩ := hl
    rw [← not_allHold_iff] at hside
    refine ⟨hfault, ?_⟩
    rw [← not_allHold_iff, allHold_append, allHold_append]
    exact fun h => hside h.1.1
  | ok a =>
    obtain ⟨hsides, hterm⟩ := hl
    rw [hterm] at ht
    have hwhen := allHold_whenEvaluated I op l.term r.sides
    rw [hterm] at hwhen
    simp only [bind, Except.bind]
    cases hd : decided? op a with
    | some v =>
      -- the right operand is left out, and its term may stand for anything
      rw [operate_of_decided hd] at ht
      refine ⟨?_, ht.2⟩
      change AllHold I (_ ++ _ ++ _)
      rw [allHold_append, allHold_append]
      exact ⟨⟨hsides, hwhen.2 (by simp [hd])⟩, ht.1⟩
    | none =>
      have hiff : AllHold I (whenEvaluated op l.term r.sides) ↔ AllHold I r.sides := by
        rw [hwhen]
        simp [hd]
      cases right with
      | error fault =>
        obtain ⟨hfault, hside⟩ := hr
        rw [← not_allHold_iff] at hside
        refine ⟨hfault, ?_⟩
        rw [← not_allHold_iff, allHold_append, allHold_append, hiff]
        exact fun h => hside h.1.2
      | ok b =>
        obtain ⟨hrsides, hrterm⟩ := hr
        rw [hrterm] at ht
        cases hv : operate op a b with
        | error fault =>
          rw [hv] at ht
          obtain ⟨hfault, hside⟩ := ht
          rw [← not_allHold_iff] at hside
          simp only [hv]
          refine ⟨hfault, ?_⟩
          rw [← not_allHold_iff, allHold_append]
          exact fun h => hside h.2
        | ok v =>
          rw [hv] at ht
          simp only [hv]
          refine ⟨?_, ht.2⟩
          change AllHold I (_ ++ _ ++ _)
          rw [allHold_append, allHold_append]
          exact ⟨⟨hsides, hiff.2 hrsides⟩, ht.1⟩

theorem lower_agrees (scope : NameScope) (I : Interpretation K) (e : Expr) {l : Lowered}
    (h : lower scope e = .ok l) : l.Agrees I (e.evaluate scope I.toInputValues) := by
  induction e generalizing l with
  | name x =>
    rw [lower] at h
    rw [Expr.evaluate]
    cases hx : scope.symbols.get? x with
    | some c =>
      rw [hx] at h
      cases hc : ofConstant c with
      | error e => simp [hc, Except.map] at h
      | ok t =>
        simp only [hc, Except.map, Except.ok.injEq] at h
        subst h
        simp only [ofConstant_agrees I hc]
        exact agrees_ok rfl
    | none =>
      rw [hx] at h
      cases h
      exact agrees_ok (denote_var I _ x)
  | int n =>
    rw [lower] at h
    cases hn : ofInt n with
    | error e => simp [hn, Except.map] at h
    | ok t =>
      simp only [hn, Except.map, Except.ok.injEq] at h
      subst h
      exact agrees_ok (ofInt_agrees I hn)
  | real x =>
    rw [lower] at h
    cases hx : ofBinary x with
    | error e => simp [hx, Except.map] at h
    | ok t =>
      simp only [hx, Except.map, Except.ok.injEq] at h
      subst h
      rw [Expr.evaluate, ofBinary_agrees I hx]
      exact agrees_ok rfl
  | bool b =>
    cases h
    exact agrees_ok rfl
  | unary op e ih =>
    cases op with
    | not =>
      obtain ⟨l', hl, ⟨⟩⟩ := bind_eq_ok h
      have hnot (t : AnyTerm) : (AnyTerm.bool (.not t.asBool)).denote I
          = .bool (!(t.denote I).truth) := by
        rw [denote, Term.denote, denote_asBool]
      exact unary_agrees (g := fun v => .bool (!v.truth)) hnot (ih hl)
    | neg =>
      obtain ⟨l', hl, ⟨⟩⟩ := bind_eq_ok h
      exact unary_agrees (denote_negative I) (ih hl)
  | binary op a b iha ihb =>
    obtain ⟨l', hl, h⟩ := bind_eq_ok h
    obtain ⟨r', hr, h⟩ := bind_eq_ok h
    obtain ⟨t, ht, ⟨⟩⟩ := bind_eq_ok h
    exact joined_agrees (iha hl) (ihb hr) (binary_agrees I ht)

end Lowering

end Reading

/-! ## Which guards are lowered -/

def AnyTerm.sort : AnyTerm → TermSort
  | int _ => .int
  | real _ => .real
  | bool _ => .bool

def NumberPair.sort : NumberPair → TermSort
  | int _ _ => .int
  | real _ _ => .real

theorem AnyTerm.sort_var (s : TermSort) (x : String) : (var s x).sort = s := by
  cases s <;> rfl

theorem AnyTerm.sort_promote (l r : AnyTerm) :
    (l.promote r).sort = commonSort l.sort r.sort := by
  cases l <;> cases r <;> rfl

theorem NumberPair.sort_combine (op : ArithOp) (p : NumberPair) : (p.combine op).sort = p.sort := by
  cases p <;> rfl

namespace Lowering

theorem exists_ofBinary {x : Binary64} (hx : (Scalar.real x).IsFinite) :
    ∃ t, ofBinary x = .ok t ∧ t.sort = .real := by
  obtain ⟨q, hq⟩ := Option.isSome_iff_exists.1 (Binary64.isSome_decimalValue? hx.1 hx.2)
  exact ⟨.real (.real q), by rw [ofBinary, hq], rfl⟩

theorem exists_ofInt {n : Int} (hn : (Scalar.int n).IsFinite) :
    ∃ t, ofInt n = .ok t ∧ t.sort = .int :=
  ⟨.int (.int n), if_pos hn, rfl⟩

theorem exists_ofConstant {c : Json} (hc : c.IsFiniteConstant) :
    ∃ t, ofConstant c = .ok t ∧ t.sort = sortOfConstant c := by
  cases c with
  | str s =>
    obtain ⟨q, hq⟩ := Option.isSome_iff_exists.1 hc
    exact ⟨.real (.real q), by rw [ofConstant, hq], rfl⟩
  | bool b => exact ⟨.bool (.bool b), rfl, rfl⟩
  | int n =>
    obtain ⟨x, ⟨⟩, hn⟩ := hc
    simpa only [ofConstant, Json.scalar?, ofScalar, sortOfConstant] using exists_ofInt hn
  | real x =>
    obtain ⟨x, ⟨⟩, hx⟩ := hc
    simpa only [ofConstant, Json.scalar?, ofScalar, sortOfConstant] using exists_ofBinary hx
  | null | arr | obj =>
    obtain ⟨x, hx, -⟩ := hc
    cases hx

theorem exists_division (whole : Expr) {isRemainder : Bool} {p : NumberPair}
    (h : isRemainder → p.sort = .int) :
    ∃ t, division whole isRemainder p = .ok t ∧ t.term.sort = p.sort := by
  cases p with
  | int a b => exact ⟨_, rfl, rfl⟩
  | real a b =>
    cases isRemainder with
    | true => exact absurd (h rfl) (by simp [NumberPair.sort])
    | false => exact ⟨_, rfl, rfl⟩

theorem exists_binary (whole : Expr) (op : BinaryOp) (l r : AnyTerm)
    (h : op = .rem → l.sort ≠ .real ∧ r.sort ≠ .real) :
    ∃ t, binary whole op l r = .ok t ∧ t.term.sort = resultSort op l.sort r.sort := by
  have hpair (k : ArithOp) : ((l.promote r).combine k).sort = commonSort l.sort r.sort := by
    rw [sort_combine, sort_promote]
  cases op with
  | add => exact ⟨_, rfl, hpair .add⟩
  | sub => exact ⟨_, rfl, hpair .sub⟩
  | mul => exact ⟨_, rfl, hpair .mul⟩
  | div =>
    have hdiv : false → (l.promote r).sort = .int := by simp
    obtain ⟨t, ht, hsort⟩ := exists_division whole hdiv
    exact ⟨t, ht, by rw [hsort, sort_promote]; rfl⟩
  | rem =>
    have hint : commonSort l.sort r.sort = .int := by
      cases hls : l.sort <;> cases hrs : r.sort <;> simp_all [commonSort]
    have hpairint : true → (l.promote r).sort = .int := by
      rw [sort_promote, hint]
      simp
    obtain ⟨t, ht, hsort⟩ := exists_division whole hpairint
    exact ⟨t, ht, by rw [hsort, sort_promote]; rfl⟩
  | eq | ne => cases l <;> cases r <;> exact ⟨_, rfl, rfl⟩
  | or | and | le | ge | lt | gt => exact ⟨_, rfl, rfl⟩

theorem exists_lower (scope : NameScope) {e : Expr} (hlit : e.HasFiniteLiterals scope)
    (hrem : e.NoFloatingRemainder scope) :
    ∃ l, lower scope e = .ok l ∧ l.term.sort = e.sortIn scope := by
  induction e with
  | name x =>
    rw [lower, sortIn]
    cases hx : scope.symbols.get? x with
    | some c =>
      obtain ⟨t, ht, hsort⟩ := exists_ofConstant (hlit c hx)
      exact ⟨⟨t, []⟩, by simp only [ht, Except.map], hsort⟩
    | none => exact ⟨_, rfl, sort_var _ x⟩
  | int n =>
    obtain ⟨t, ht, hsort⟩ := exists_ofInt hlit
    exact ⟨⟨t, []⟩, by rw [lower, ht]; rfl, hsort⟩
  | real x =>
    obtain ⟨t, ht, hsort⟩ := exists_ofBinary hlit
    exact ⟨⟨t, []⟩, by rw [lower, ht]; rfl, hsort⟩
  | bool b => exact ⟨_, rfl, rfl⟩
  | unary op e ih =>
    obtain ⟨l, hl, hsort⟩ := ih hlit hrem
    cases op with
    | not => exact ⟨_, by rw [lower, hl]; rfl, rfl⟩
    | neg =>
      refine ⟨_, by rw [lower, hl]; rfl, ?_⟩
      rw [sortIn, ← hsort]
      cases l.term <;> rfl
  | binary op a b iha ihb =>
    obtain ⟨l, hl, hlsort⟩ := iha hlit.1 hrem.1
    obtain ⟨r, hr, hrsort⟩ := ihb hlit.2 hrem.2.1
    obtain ⟨t, ht, htsort⟩ := exists_binary (.binary op a b) op l.term r.term
      (by rw [hlsort, hrsort]; exact hrem.2.2)
    refine ⟨_, by rw [lower, hl]; simp only [bind, Except.bind, hr, ht]; rfl, ?_⟩
    rw [htsort, hlsort, hrsort, sortIn]

/-- Lowering preserves the C meaning of a guard with finite literals and without a floating
remainder.  Where evaluation gives a value, all side conditions hold and the term has the value;
where it does not, it divides by zero, and a side condition fails. -/
theorem lower_preserves_meaning {K : Type} [Field K] [LinearOrder K] (scope : NameScope) (e : Expr)
    (hlit : e.HasFiniteLiterals scope) (hrem : e.NoFloatingRemainder scope) :
    ∃ l, lower scope e = .ok l ∧
      ∀ I : Interpretation K, l.Agrees I (e.evaluate scope I.toInputValues) := by
  obtain ⟨l, hl, -⟩ := exists_lower scope hlit hrem
  exact ⟨l, hl, fun I => lower_agrees scope I e hl⟩

/-- In `d != 0 && n % d > 1.5` the divisor is guarded, and the remainder is compared as a real. -/
theorem lower_preserves_meaning_guarded : let scope : NameScope := ⟨fun _ => .int, .empty⟩
    let e : Expr := .binary .and (.binary .ne (.name "d") (.int 0))
      (.binary .gt (.binary .rem (.name "n") (.name "d")) (.real (.finite false 3 (-1))))
    e.HasFiniteLiterals scope ∧ e.NoFloatingRemainder scope ∧
      ∃ l, lower scope e = .ok l ∧
        ∀ I : Interpretation Rat, l.Agrees I (e.evaluate scope I.toInputValues) := by
  intro scope e
  have hlit : e.HasFiniteLiterals scope := by
    refine ⟨⟨?_, ?_⟩, ⟨?_, ?_⟩, ?_⟩
    · intro c hc
      cases hc
    · show Number.isWritable 0
      decide +kernel
    · intro c hc
      cases hc
    · intro c hc
      cases hc
    · exact ⟨rfl, show 3 < 2 ^ 53 by norm_num⟩
  have hrem : e.NoFloatingRemainder scope := by
    simp [e, scope, Expr.NoFloatingRemainder, sortIn, Table.empty, Table.get?]
  exact ⟨hlit, hrem, lower_preserves_meaning scope e hlit hrem⟩

end Lowering

/-! ## The evaluator of terms -/

def Valuation.interpretation (v : Valuation) : Interpretation Rat :=
  ⟨⟨v.int, v.real, v.bool⟩, v.intByZero, v.realByZero⟩

theorem Comparison.holds_eq_onInt (c : Comparison) (a b : Int) : c.holds a b = c.onInt a b := by
  rw [Bool.eq_iff_iff]
  cases c <;> simp [holds, onInt]

theorem Comparison.holds_eq_onRat (c : Comparison) (a b : Rat) : c.holds a b = c.onRat a b := by
  rw [Bool.eq_iff_iff]
  cases c <;> simp [holds, onRat]

theorem Term.denote_interpretation (v : Valuation) {s : TermSort} (t : Term s) :
    t.denote v.interpretation = t.eval v := by
  induction t with
  | var s x => cases s <;> rfl
  | real q => exact Rat.cast_id q
  | int | bool => rfl
  | toReal t ih | not t ih =>
    rw [denote, eval, ih]
  | negInt t ih => rw [denote, eval, ih]
  | negReal t ih =>
    rw [denote, eval, ih]
    rfl
  | ite c t e ihc iht ihe => rw [denote, eval, ihc, iht, ihe]
  | intOp op a b iha ihb | realOp op a b iha ihb =>
    rw [denote, eval, iha, ihb]
    cases op <;> rfl
  | quot a b iha ihb | rem a b iha ihb | ratio a b iha ihb =>
    rw [denote, eval, iha, ihb]
    rfl
  | intRel c a b iha ihb => rw [denote, eval, iha, ihb, Comparison.holds_eq_onInt]
  | realRel c a b iha ihb => rw [denote, eval, iha, ihb, Comparison.holds_eq_onRat]
  | and a b iha ihb | or a b iha ihb | implies a b iha ihb | iff a b iha ihb =>
    rw [denote, eval, iha, ihb]

end Branchwise
