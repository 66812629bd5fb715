import Branchwise.Declarations.Basic
import Branchwise.Proofs.Engine.Agreement

/-!
# Folding constants

The values of enumerators are folded from their expressions, without the engine.  Folding computes
the C value of an expression over integer names, and gives nothing exactly if a name is not known, a
divisor is zero, or an operator is not an arithmetic one.  So it agrees with what the engine gives,
as far as the numbers can be written.
-/

namespace Branchwise

open List Table Literal Option Value

/-! ## Names with known integers -/

def Knows (symbols : Table String Json) (known : Table Json Scalar) : Prop :=
  ∀ x, symbols.get? x = (known.get? (.str x)).map .ofScalar

/-- All known scalars are integers, or truth values that count as such. -/
def AreIntegers (known : Table Json Scalar) : Prop := ∀ c ∈ known.values, ∃ n, c.int? = some n

namespace Value

variable {v : Value ℚ} {m n : ℤ}

theorem truth_of_number (h : v.number = .int n) : v.truth = decide (n ≠ 0) := by
  cases v with
  | int m =>
    cases h
    rfl
  | bool b =>
    cases h
    cases b <;> rfl
  | real q => cases h

theorem neg_of_number (h : v.number = .int n) : v.neg = .int (-n) := by
  unfold neg
  rw [h]

theorem onNumbers_of_number {α : Type} {onInt : ℤ → ℤ → α} {onReal : ℚ → ℚ → α} {w : Value ℚ}
    (hv : v.number = .int m) (hw : w.number = .int n) : onNumbers onInt onReal v w = onInt m n := by
  unfold onNumbers
  rw [hv, hw]

end Value

namespace Expr

variable {known : Table Json Scalar} {scope : NameScope} {a : InputValues ℚ} {e : Expr} {n : ℤ}

/-- Expressions of integers, truth values, names, signs, negations and arithmetic operators. -/
def IsArithmetic : Expr → Prop
  | real _ => False
  | unary _ e => e.IsArithmetic
  | binary op l r =>
    op ∈ [BinaryOp.add, .sub, .mul, .div, .rem] ∧ l.IsArithmetic ∧ r.IsArithmetic
  | _ => True

def foldBinary (op : BinaryOp) (a b : ℤ) : Option ℤ :=
  match op with
  | .add => some (a + b)
  | .sub => some (a - b)
  | .mul => some (a * b)
  | .div => if b = 0 then none else some (a.tdiv b)
  | .rem => if b = 0 then none else some (a - b * a.tdiv b)
  | _ => none

theorem fold_binary (op : BinaryOp) (l r : Expr) :
    (binary op l r).fold known
      = (l.fold known).bind fun a => (r.fold known).bind fun b => foldBinary op a b := by
  cases op <;> rfl

theorem operate_of_foldBinary {op : BinaryOp} {v w : Value ℚ} {m n : ℤ}
    (hv : v.number = .int m) (hw : w.number = .int n)
    (hop : op ∈ [BinaryOp.add, .sub, .mul, .div, .rem]) :
    decided? op v = none ∧ operate op v w = match foldBinary op m n with
      | some k => .ok (.int k)
      | none => .error .divisionByZero := by
  simp only [mem_cons, not_mem_nil, or_false] at hop
  rcases hop with rfl | rfl | rfl | rfl | rfl <;>
    refine ⟨by cases v.truth <;> rfl, ?_⟩
  · exact congrArg _ (onNumbers_of_number hv hw)
  · exact congrArg _ (onNumbers_of_number hv hw)
  · exact congrArg _ (onNumbers_of_number hv hw)
  · show v.div w = _
    rw [div, onNumbers_of_number hv hw, foldBinary]
    split <;> rfl
  · show v.rem w = _
    rw [rem, onNumbers_of_number hv hw, foldBinary, Int.tmod_def]
    split <;> rfl

theorem mem_arithmetic_of_foldBinary {op : BinaryOp} {m n k : ℤ} (h : foldBinary op m n = some k) :
    op ∈ [BinaryOp.add, .sub, .mul, .div, .rem] := by
  cases op <;> first | decide | cases h

theorem evaluate_of_fold (hknows : Knows scope.symbols known) (h : e.fold known = some n) :
    ∃ v, e.evaluate scope a = .ok v ∧ v.number = .int n := by
  induction e generalizing n with
  | name x =>
    obtain ⟨c, hc, hn⟩ := bind_eq_some_iff.mp h
    have hsymbol := hknows x
    rw [hc] at hsymbol
    simp only [evaluate, hsymbol]
    cases c with
    | bool b =>
      cases hn
      exact ⟨.bool b, rfl, rfl⟩
    | int m =>
      obtain rfl := Option.some.inj hn
      exact ⟨.int m, rfl, rfl⟩
    | real x => cases hn
  | int m =>
    cases h
    exact ⟨_, rfl, rfl⟩
  | bool b =>
    cases h
    exact ⟨_, rfl, rfl⟩
  | real x => cases h
  | unary op e ih =>
    cases op with
    | neg =>
      obtain ⟨m, hm, rfl⟩ := Option.map_eq_some_iff.mp h
      obtain ⟨v, hv, hnumber⟩ := ih hm
      exact ⟨v.neg, by rw [evaluate, hv]; rfl, by rw [neg_of_number hnumber]; rfl⟩
    | not =>
      obtain ⟨m, hm, rfl⟩ := Option.map_eq_some_iff.mp h
      obtain ⟨v, hv, hnumber⟩ := ih hm
      refine ⟨.bool (!v.truth), by rw [evaluate, hv]; rfl, ?_⟩
      rw [truth_of_number hnumber]
      by_cases hzero : m = 0 <;> simp [Value.number]
  | binary op l r ihl ihr =>
    rw [fold_binary] at h
    obtain ⟨p, hp, h⟩ := bind_eq_some_iff.mp h
    obtain ⟨q, hq, h⟩ := bind_eq_some_iff.mp h
    obtain ⟨v, hv, hvp⟩ := ihl hp
    obtain ⟨w, hw, hwq⟩ := ihr hq
    obtain ⟨hdecided, hoperate⟩ := operate_of_foldBinary hvp hwq (mem_arithmetic_of_foldBinary h)
    rw [h] at hoperate
    refine ⟨.int n, ?_, rfl⟩
    simp only [evaluate, hv, hw, ok_bind, hdecided, hoperate]

theorem evaluate_of_fold_eq_none (hknows : Knows scope.symbols known) (hint : AreIntegers known)
    (harith : e.IsArithmetic) (hnames : ∀ x, .name x ∈ e.walk → (known.get? (.str x)).isSome)
    (h : e.fold known = none) : e.evaluate scope a = .error .divisionByZero := by
  induction e with
  | name x =>
    obtain ⟨c, hc⟩ := isSome_iff_exists.mp (hnames x mem_cons_self)
    obtain ⟨n, hn⟩ := hint c (mem_values_of_get? hc)
    rw [fold, hc, bind_some, hn] at h
    cases h
  | int | bool => cases h
  | real => exact harith.elim
  | unary op e ih =>
    have he : e.fold known = none := by
      cases op <;> exact map_eq_none_iff.mp h
    have herror := ih harith (fun x hx => hnames x (mem_cons_of_mem _ hx)) he
    cases op <;> rw [evaluate, herror] <;> rfl
  | binary op l r ihl ihr =>
    obtain ⟨hop, hl, hr⟩ := harith
    have hnamesl x (hx : name x ∈ l.walk) :=
      hnames x (mem_cons_of_mem _ (mem_append_left _ hx))
    have hnamesr x (hx : name x ∈ r.walk) :=
      hnames x (mem_cons_of_mem _ (mem_append_right _ hx))
    rw [fold_binary] at h
    cases hp : l.fold known with
    | none =>
      rw [evaluate, ihl hl hnamesl hp]
      rfl
    | some p =>
      obtain ⟨v, hv, hvp⟩ := evaluate_of_fold (a := a) hknows hp
      rw [hp, bind_some] at h
      -- No arithmetic operator leaves its right operand out.
      have hdecided : decided? op v = none :=
        (operate_of_foldBinary (w := .int 0) hvp rfl hop).1
      cases hq : r.fold known with
      | none =>
        simp only [evaluate, hv, ok_bind, hdecided, ihr hr hnamesr hq]
        rfl
      | some q =>
        obtain ⟨w, hw, hwq⟩ := evaluate_of_fold (a := a) hknows hq
        rw [hq, bind_some] at h
        have hoperate := (operate_of_foldBinary hvp hwq hop).2
        rw [h] at hoperate
        simp only [evaluate, hv, hw, ok_bind, hdecided, hoperate]

theorem isArithmetic_of_fold (h : e.fold known = some n) :
    e.IsArithmetic ∧ ∀ x, .name x ∈ e.walk → (known.get? (.str x)).isSome := by
  induction e generalizing n with
  | name x =>
    refine ⟨trivial, fun y hy => ?_⟩
    obtain rfl := Expr.name.inj (mem_singleton.mp hy)
    obtain ⟨c, hc, -⟩ := bind_eq_some_iff.mp h
    rw [hc]
    rfl
  | int | bool => exact ⟨trivial, fun y hy => nomatch mem_singleton.mp hy⟩
  | real => cases h
  | unary op e ih =>
    obtain ⟨m, hm⟩ : ∃ m, e.fold known = some m := by
      cases op <;> exact (Option.map_eq_some_iff.mp h).imp fun _ => And.left
    exact ⟨(ih hm).1, fun x hx => (ih hm).2 x ((mem_cons.mp hx).resolve_left nofun)⟩
  | binary op l r ihl ihr =>
    obtain ⟨p, hp, h⟩ := bind_eq_some_iff.mp h
    obtain ⟨q, hq, h⟩ := bind_eq_some_iff.mp h
    refine ⟨⟨mem_arithmetic_of_foldBinary h, (ihl hp).1, (ihr hq).1⟩, fun x hx => ?_⟩
    rcases mem_append.mp ((mem_cons.mp hx).resolve_left nofun) with hx | hx
    · exact (ihl hp).2 x hx
    · exact (ihr hq).2 x hx

/-- The integers of an expression, those that its names stand for included, can be written. -/
def IsShort (known : Table Json Scalar) (e : Expr) : Prop := ∀ part ∈ e.walk, ∀ n,
  part = int n ∨ (∃ x, part = name x ∧ known.get? (.str x) = some (.int n)) →
    Number.isWritable n

theorem IsArithmetic.sortIn_ne_real (hknows : Knows scope.symbols known) (hint : AreIntegers known)
    (hsort : ∀ x, scope.sort x ≠ .real) (h : e.IsArithmetic) : e.sortIn scope ≠ .real := by
  have hi : TermSort.int ≠ .real := by decide
  have hb : TermSort.bool ≠ .real := by decide
  have hcommon {s t : TermSort} (hs : s ≠ .real) (ht : t ≠ .real) : commonSort s t ≠ .real := by
    cases s <;> cases t <;> first | exact absurd rfl hs | exact absurd rfl ht | exact hi
  induction e with
  | name x =>
    rw [sortIn, hknows x]
    cases hc : known.get? (.str x) with
    | none => exact hsort _
    | some c =>
      obtain ⟨n, hn⟩ := hint c (mem_values_of_get? hc)
      cases c with
      | real => cases hn
      | bool => exact hb
      | int => exact hi
  | int => exact hi
  | bool => exact hb
  | real => exact h.elim
  | unary op e ih =>
    cases op with
    | not => exact hb
    | neg => exact hcommon (ih h) hi
  | binary op l r ihl ihr =>
    cases op <;> first | exact hcommon (ihl h.2.1) (ihr h.2.2) | exact hb

theorem IsArithmetic.noFloatingRemainder (hknows : Knows scope.symbols known)
    (hint : AreIntegers known) (hsort : ∀ x, scope.sort x ≠ .real) (h : e.IsArithmetic) :
    e.NoFloatingRemainder scope := by
  induction e with
  | name | int | bool | real => trivial
  | unary op e ih => exact ih h
  | binary op l r ihl ihr =>
    exact ⟨ihl h.2.1, ihr h.2.2, fun _ => ⟨h.2.1.sortIn_ne_real hknows hint hsort,
      h.2.2.sortIn_ne_real hknows hint hsort⟩⟩

theorem IsShort.hasFiniteLiterals (hknows : Knows scope.symbols known) (harith : e.IsArithmetic)
    (hint : AreIntegers known) (h : e.IsShort known) : e.HasFiniteLiterals scope := by
  induction e with
  | name x =>
    intro c hc
    rw [hknows x] at hc
    obtain ⟨c, hget, rfl⟩ := Option.map_eq_some_iff.mp hc
    obtain ⟨n, hn⟩ := hint c (mem_values_of_get? hget)
    cases c with
    | bool b => exact ⟨.bool b, rfl, trivial⟩
    | int m => exact ⟨.int m, rfl, h _ mem_cons_self m (.inr ⟨x, rfl, hget⟩)⟩
    | real => cases hn
  | int n => exact h _ mem_cons_self n (.inl rfl)
  | bool => trivial
  | real => exact harith.elim
  | unary op e ih => exact ih harith fun part hpart => h part (mem_cons_of_mem _ hpart)
  | binary op l r ihl ihr =>
    exact ⟨ihl harith.2.1 fun part hpart => h part
        (mem_cons_of_mem _ (mem_append_left _ hpart)),
      ihr harith.2.2 fun part hpart => h part
        (mem_cons_of_mem _ (mem_append_right _ hpart))⟩

end Expr

/-! ## Evaluation by the engine -/

namespace Engine

/-- The answer for an integer: its literal, or an error if it has too many digits to be written. -/
inductive AnswersInteger : Except Error String → ℤ → Prop
  | literal {text : String} {n : ℤ} :
    Number.isWritable n → value text = .ok (.int n) → AnswersInteger (.ok text) n
  | tooLong {n : ℤ} : Number.isWritable n = false →
    AnswersInteger (.error (.longInteger (some (Number.decimalLength n.natAbs)))) n

theorem answersInteger_digits (n : ℤ) : AnswersInteger (digits n) n := by
  cases hn : Number.isWritable n with
  | true =>
    have hdigits : digits n = .ok (toString n) := by rw [digits, hn]; rfl
    rw [hdigits]
    refine .literal hn ?_
    rw [value, (parse_of_digits hdigits).1]
    rfl
  | false =>
    rw [digits, hn]
    exact .tooLong hn

theorem answersInteger_literalOf {t : AnyTerm} {n : ℤ}
    (h : (t.denote Valuation.zero.interpretation).number = .int n) :
    AnswersInteger (literalOf t) n := by
  cases t with
  | int t =>
    rw [AnyTerm.denote, Term.denote_interpretation] at h
    obtain rfl := Value.int.inj h
    rw [literalOf, Literal.write]
    exact answersInteger_digits _
  | bool t =>
    rw [AnyTerm.denote, Term.denote_interpretation] at h
    obtain rfl := Value.int.inj h
    refine .literal (by cases t.eval .zero <;> decide +kernel) ?_
    cases h : t.eval .zero <;> simp <;> rfl
  | real t => cases h

variable {known : Table Json Scalar} {text : String} {g : Expr}

theorem get?_mapValues {κ α β : Type} [BEq κ] (f : α → β) (t : Table κ α) (k : κ) :
    (t.mapValues f).get? k = (t.get? k).map f := by
  simp [get?, mapValues, Function.comp_def]

theorem exists_bindAll_known (aliases : Option AliasTable) (hint : AreIntegers known)
    (hkeys : known.keys.Pairwise fun k k' => ¬(k == k')) :
    ∃ bound, (⟨aliases, .empty⟩ : Engine).bindAll none (known.mapValues .ofScalar) = .ok bound ∧
      Knows bound known := by
  have hbind (x : Json) {c : Scalar} (hc : ∃ n, c.int? = some n) :
      (⟨aliases, .empty⟩ : Engine).bind none x (.ofScalar c) = .ok (.ofScalar c) := by
    obtain ⟨n, hn⟩ := hc
    cases c with
    | real => cases hn
    | bool | int => rfl
  have hkeys : (known.mapValues Json.ofScalar).keys.Pairwise fun k k' => ¬(k == k') := by
    rwa [keys_mapValues]
  obtain ⟨bound, hbound, hread, hkept⟩ := exists_bindAll ⟨aliases, .empty⟩ hkeys (by
      intro p hp
      obtain ⟨⟨k, c⟩, hkc, rfl⟩ := mem_map.mp hp
      exact ⟨_, hbind _ (hint c (mem_map_of_mem (f := Prod.snd) hkc))⟩)
  refine ⟨bound, hbound, fun x => ?_⟩
  have hvalue := get?_mapValues Json.ofScalar known (.str x)
  cases hc : known.get? (.str x) with
  | none => exact hkept x (by rw [hvalue, hc]; rfl)
  | some c =>
    exact hread x _ _ (by rw [hvalue, hc]; rfl) (hbind _ (hint c (mem_values_of_get? hc)))

/-- Evaluating an arithmetic expression over known integers gives its C value, or fails because a
divisor is zero. -/
theorem evaluate_known (aliases : Option AliasTable) (hparse : Guard.parse text = .ok g)
    (hint : AreIntegers known) (hkeys : known.keys.Pairwise fun k k' => ¬(k == k'))
    (harith : g.IsArithmetic) (hshort : g.IsShort known)
    (hnames : ∀ x ∈ g.freeNames, (known.get? (.str x)).isSome) :
    ∃ scope a, Knows scope.symbols known ∧
      match g.evaluate (K := ℚ) scope a with
      | .ok v => ∀ n, v.number = .int n → AnswersInteger
          ((⟨aliases, .empty⟩ : Engine).evaluate (.str text) (known.mapValues .ofScalar) none) n
      | .error _ => (⟨aliases, .empty⟩ : Engine).evaluate (.str text) (known.mapValues .ofScalar)
          none = .error (.guard ⟨text, .divisionByZero⟩) := by
  obtain ⟨bound, hbound, hknows⟩ := exists_bindAll_known aliases hint hkeys
  have hsort : ∀ x : Json, (fun _ => TermSort.int : Json → TermSort) x ≠ .real := fun _ => nofun
  have hremainder : g.NoFloatingRemainder ⟨fun _ => .int, bound⟩ :=
    harith.noFloatingRemainder hknows hint hsort
  obtain ⟨l, hl, -⟩ := Lowering.exists_lower ⟨fun _ => .int, bound⟩
    (hshort.hasFiniteLiterals hknows harith hint) hremainder
  have hagrees := Lowering.lower_agrees _ Valuation.zero.interpretation g hl
  have hg : Guard.ofJson (.str text) = .ok g := by rw [Guard.ofJson, hparse]; rfl
  have hcontains : ∀ x ∈ (⟨aliases, .empty⟩ : Engine).variablesOf g,
      (known.mapValues Json.ofScalar).contains (.str x) := by
    intro x hx
    rw [contains_eq_isSome_get?, get?_mapValues, isSome_map]
    exact hnames x (mem_filter.mp hx).1
  refine ⟨⟨fun _ => .int, bound⟩, Valuation.zero.interpretation.toInputValues, hknows, ?_⟩
  cases hv : g.evaluate ⟨fun _ => .int, bound⟩ Valuation.zero.interpretation.toInputValues with
  | ok v =>
    rw [hv] at hagrees
    intro n hn
    rw [evaluate_eq_of_agrees hg hcontains hbound hl hagrees]
    exact answersInteger_literalOf (hagrees.2 ▸ hn)
  | error =>
    rw [hv] at hagrees
    exact evaluate_eq_of_agrees hg hcontains hbound hl hagrees

end Engine

/-! ## Enumerators -/

def symbolsOf (known : Table Json Scalar) : Table String Json where
  entries := known.entries.filterMap fun p => match p.1 with
    | .str x => some (x, .ofScalar p.2)
    | _ => none

theorem knows_symbolsOf (known : Table Json Scalar) : Knows (symbolsOf known) known := by
  intro x
  obtain ⟨es⟩ := known
  induction es with
  | nil => rfl
  | cons p es ih =>
    obtain ⟨k, c⟩ := p
    simp only [symbolsOf, get?, find?_cons] at ih ⊢
    cases hk : k == Json.str x with
    | true =>
      obtain rfl := (Json.isolated_str x k).1.mp hk
      simp
    | false =>
      cases k with
      | str y =>
        have hne : (y == x) = false := hk
        simpa [hne] using ih
      | null | bool | int | real | arr | obj => simpa using ih

namespace EnumDecl

/-- The value that the next enumerator has if none is given: zero, or one more than the one before
has. -/
def nextValue (before : List (Json × Scalar)) : ℤ :=
  match before.getLast? with
  | some p => (p.2.int?.getD 0) + 1
  | none => 0

/-- An expression over the enumerators before it has a C value: it is arithmetic, and its names are
known. -/
def HasValue (before : List (Json × Scalar)) (text : String) (n : ℤ) : Prop :=
  ∃ g, Guard.parse text = .ok g ∧ g.IsArithmetic ∧
    (∀ x ∈ g.freeNames, ((ofList before).get? (.str x)).isSome) ∧
    ∃ v, g.evaluate ⟨fun _ => .int, symbolsOf (.ofList before)⟩
      Valuation.zero.interpretation.toInputValues = .ok v ∧ v.number = .int n

/-- The value that an enumerator stands for behind some others. -/
def Given (before : List (Json × Scalar)) (v : Enumerator) (n : ℤ) : Prop :=
  match v.value with
  | .null => n = nextValue before
  | .int m => n = m
  | .bool b => n = if b then 1 else 0
  | value => HasValue before value.plain n

variable {before : List (Json × Scalar)} {d : EnumDecl} {v : Enumerator}

theorem hasValue_iff_fold (hint : AreIntegers (.ofList before)) (text : String) (n : ℤ) :
    HasValue before text n ↔
      ∃ g, Guard.parse text = .ok g ∧ g.fold (.ofList before) = some n := by
  have hknows : Knows (NameScope.mk (fun _ => .int) (symbolsOf (.ofList before))).symbols _ :=
    knows_symbolsOf (.ofList before)
  constructor
  · rintro ⟨g, hg, harith, hnames, v, hv, hn⟩
    refine ⟨g, hg, ?_⟩
    cases hfold : g.fold (.ofList before) with
    | none =>
      have hnamed x (hx : .name x ∈ g.walk) := hnames x (Expr.mem_freeNames.mpr hx)
      cases (Expr.evaluate_of_fold_eq_none hknows hint harith hnamed hfold).symm.trans hv
    | some m =>
      obtain ⟨w, hw, hm⟩ := Expr.evaluate_of_fold hknows hfold
      cases hw.symm.trans hv
      rw [Value.int.inj (hm.symm.trans hn)]
  · rintro ⟨g, hg, hfold⟩
    obtain ⟨harith, hnames⟩ := Expr.isArithmetic_of_fold hfold
    exact ⟨g, hg, harith, fun x hx => hnames x (Expr.mem_freeNames.mp hx),
      Expr.evaluate_of_fold hknows hfold⟩

theorem int?_expressionValue? (known : Table Json Scalar) (text : String) :
    (expressionValue? known text).bind Scalar.int?
      = (Guard.parse text).toOption.bind fun g => g.fold known := by
  unfold expressionValue?
  split <;> next hparse =>
    simp [hparse, Except.toOption, Expr.fold, Option.bind_map, Scalar.int?]

theorem expressionValue?_spec (hint : AreIntegers (.ofList before)) (text : String) :
    match expressionValue? (.ofList before) text with
    | some x => ∃ n, x.int? = some n ∧ HasValue before text n
    | none => ¬∃ n, HasValue before text n := by
  have hfold := int?_expressionValue? (.ofList before) text
  have hiff (n) : HasValue before text n ↔
      (Guard.parse text).toOption.bind (fun g => g.fold (.ofList before)) = some n := by
    rw [hasValue_iff_fold hint]
    cases Guard.parse text <;> simp [Except.toOption]
  simp only [hiff, ← hfold]
  split
  · next x hx =>
    have hx' : ∃ n, x.int? = some n := by
      unfold expressionValue? at hx
      split at hx
      · exact hint x (mem_values_of_get? hx)
      · obtain ⟨n, -, rfl⟩ := Option.map_eq_some_iff.mp hx
        exact ⟨n, rfl⟩
      · cases hx
    obtain ⟨n, hn⟩ := hx'
    exact ⟨n, hn, by rw [hx]; exact hn⟩
  · next hnone =>
    rw [hnone]
    exact nofun

theorem enumeratorValue_spec (d : EnumDecl) (hint : AreIntegers (.ofList before)) (v : Enumerator) :
    match d.enumeratorValue (.ofList before) (nextValue before) v with
    | .ok x => ∃ n, x.int? = some n ∧ Given before v n
    | .error _ => ¬∃ n, Given before v n := by
  obtain ⟨name, value⟩ := v
  have hspec := expressionValue?_spec hint value.plain
  cases value with
  | null => exact ⟨_, rfl, rfl⟩
  | int m => exact ⟨_, rfl, rfl⟩
  | bool b => exact ⟨_, rfl, rfl⟩
  | real | str | arr | obj =>
    simp only [enumeratorValue, Given]
    split at hspec <;> next h => simpa only [h] using hspec

/-- Enumerators have the values that they stand for behind the ones before; evaluation fails only at
one that stands for none. -/
theorem evaluateFrom_spec (d : EnumDecl) {vs : List Enumerator}
    (hnames : ∀ v ∈ vs, v.name.isKey) (hint : AreIntegers (.ofList before)) :
    match d.evaluateFrom (.ofList before) (nextValue before) vs with
    | .ok after => after.length = vs.length ∧ ∀ (i : Nat) v, vs[i]? = some v → ∃ x n,
        after[i]? = some (v.name, x) ∧ x.int? = some n ∧ Given (before ++ after.take i) v n
    | .error _ => ∃ (i : Nat) (v : Enumerator) (after : List (Json × Scalar)), vs[i]? = some v ∧
        d.evaluateFrom (.ofList before) (nextValue before) (vs.take i) = .ok after ∧
        ¬∃ n, Given (before ++ after) v n := by
  induction vs generalizing before with
  | nil => exact ⟨rfl, nofun⟩
  | cons v vs ih =>
    obtain ⟨hname, hnames⟩ := forall_mem_cons.mp hnames
    have hvalue := enumeratorValue_spec d hint v
    have hkey : v.name.asKey = .ok v.name := if_pos hname
    cases hx : d.enumeratorValue (.ofList before) (nextValue before) v with
    | error err =>
      rw [hx] at hvalue
      rw [evaluateFrom, hx]
      exact ⟨0, v, [], rfl, rfl, by rwa [append_nil]⟩
    | ok x =>
      rw [hx] at hvalue
      obtain ⟨n, hn, hgiven⟩ := hvalue
      have hput : (ofList before).put v.name x = .ofList (before ++ [(v.name, x)]) :=
        (ofList_concat before (v.name, x)).symm
      have hnext : (x.int?.getD 0) + 1 = nextValue (before ++ [(v.name, x)]) := by
        rw [nextValue, getLast?_concat]
      have hints : AreIntegers (.ofList (before ++ [(v.name, x)])) := by
        intro c hc
        rw [← hput] at hc
        rcases mem_values_put hc with hc | rfl
        · exact hint c hc
        · exact ⟨n, hn⟩
      have hstep us : d.evaluateFrom (.ofList before) (nextValue before) (v :: us)
          = (d.evaluateFrom (.ofList (before ++ [(v.name, x)]))
              (nextValue (before ++ [(v.name, x)])) us).map ((v.name, x) :: ·) := by
        rw [evaluateFrom, hx, ← hput, ← hnext]
        simp only [ok_bind, hkey]
        rfl
      have hrest := ih hnames hints
      rw [hstep]
      cases hvs : d.evaluateFrom (.ofList (before ++ [(v.name, x)]))
          (nextValue (before ++ [(v.name, x)])) vs with
      | ok after =>
        rw [hvs] at hrest
        obtain ⟨hlength, hrest⟩ := hrest
        refine ⟨congrArg (· + 1) hlength, fun i w hw => ?_⟩
        cases i with
        | zero =>
          cases hw
          exact ⟨x, n, rfl, hn, by simpa using hgiven⟩
        | succ i => simpa using hrest i w hw
      | error =>
        rw [hvs] at hrest
        obtain ⟨i, w, after, hw, htake, hnone⟩ := hrest
        refine ⟨i + 1, w, (v.name, x) :: after, hw, ?_, by simpa using hnone⟩
        rw [take_succ_cons, hstep, htake]
        rfl

end EnumDecl

/-! ## Agreement -/

/-- Folding an expression over known integers gives the value that evaluation answers, and nothing
exactly if a name is not known or evaluation divides by zero.  So the enumerators of an enumeration
have their C values, and one without a value has zero or one more than the one before. -/
theorem Expr.fold_agrees_with_evaluation {text : String} {e : Expr}
    {entries : List (Json × Scalar)} (aliases : Option AliasTable)
    (hparse : Guard.parse text = .ok e)
    (hint : ∀ p ∈ entries, ∃ n, p.2.int? = some n) (hshort : e.IsShort (.ofList entries)) :
    let known := Table.ofList entries
    let answer := (⟨aliases, .empty⟩ : Engine).evaluate (.str text) (known.mapValues .ofScalar) none
    (∀ n, e.fold known = some n → Engine.AnswersInteger answer n) ∧
    (e.IsArithmetic → (e.fold known = none ↔ (∃ x ∈ e.freeNames, known.get? (.str x) = none) ∨
      answer = .error (.guard ⟨text, .divisionByZero⟩))) ∧
    ∀ d : EnumDecl, (∀ v ∈ d.values, v.name.isKey = true) →
      match d.resolved with
      | .ok vs => vs.length = d.values.length ∧ ∀ (i : Nat) v, d.values[i]? = some v → ∃ x n,
          vs[i]? = some (v.name, x) ∧ x.int? = some n ∧ EnumDecl.Given (vs.take i) v n
      | .error _ => ∃ (i : Nat) (v : Enumerator) (before : List (Json × Scalar)),
          d.values[i]? = some v ∧ d.evaluateFrom .empty 0 (d.values.take i) = .ok before ∧
          ¬∃ n, EnumDecl.Given before v n := by
  intro known answer
  have hints : AreIntegers known := by
    intro c hc
    obtain ⟨p, hp, rfl⟩ := List.mem_map.mp (Table.mem_values_ofList hc)
    exact hint p hp
  have hkeys := Table.pairwise_keys_ofList entries
  have hfolded n (hn : e.fold known = some n) : Engine.AnswersInteger answer n := by
    obtain ⟨harith, hnames⟩ := isArithmetic_of_fold hn
    obtain ⟨scope, a, hknows, hanswer⟩ := Engine.evaluate_known aliases hparse hints
      hkeys harith hshort fun x hx => hnames x (mem_freeNames.mp hx)
    obtain ⟨v, hv, hvn⟩ := evaluate_of_fold (a := a) hknows hn
    rw [hv] at hanswer
    exact hanswer n hvn
  refine ⟨hfolded, fun harith => ⟨fun hnone => ?_, ?_⟩, fun d hnames =>
    EnumDecl.evaluateFrom_spec d hnames (show AreIntegers (.ofList []) from nofun)⟩
  · by_cases hnames : ∃ x ∈ e.freeNames, known.get? (.str x) = none
    · exact .inl hnames
    · have hnames x (hx : x ∈ e.freeNames) : (known.get? (.str x)).isSome := by
        rw [Option.isSome_iff_ne_none]
        exact fun hx' => hnames ⟨x, hx, hx'⟩
      obtain ⟨scope, a, hknows, hanswer⟩ := Engine.evaluate_known aliases hparse hints
        hkeys harith hshort hnames
      rw [evaluate_of_fold_eq_none hknows hints harith
        (fun x hx => hnames x (mem_freeNames.mpr hx)) hnone] at hanswer
      exact .inr hanswer
  · intro h
    by_contra hsome
    obtain ⟨n, hn⟩ := ne_none_iff_exists'.mp hsome
    rcases h with ⟨x, hx, hnone⟩ | herror
    · have hknown := (isArithmetic_of_fold hn).2 x (mem_freeNames.mp hx)
      rw [hnone] at hknown
      cases hknown
    · have hanswers := hfolded n hn
      rw [herror] at hanswers
      cases hanswers

/-- A truth value counts as one, and the remainder of a negative number is negative. -/
theorem Expr.fold_agrees_with_evaluation_remainder :
    let entries : List (Json × Scalar) := [(.str "A", .int (-7)), (.str "B", .bool true)]
    let e := Expr.binary .add (.name "B") (.binary .rem (.name "A") (.int 3))
    Guard.parse "B + A % 3" = .ok e ∧ e.IsShort (.ofList entries) ∧
    Engine.AnswersInteger ((⟨none, .empty⟩ : Engine).evaluate (.str "B + A % 3")
      ((Table.ofList entries).mapValues .ofScalar) none) 0 := by
  intro entries e
  have hparse : Guard.parse "B + A % 3" = .ok e := by decide +kernel
  have hshort : e.IsShort (.ofList entries) := by
    intro part hpart n h
    rcases h with rfl | ⟨x, rfl, hx⟩
    · obtain rfl : n = 3 := by simpa [e, walk] using hpart
      decide +kernel
    · have hx' : x = "B" ∨ x = "A" := by simpa [e, walk] using hpart
      rcases hx' with rfl | rfl
      · cases hx
      · obtain rfl : -7 = n := Scalar.int.inj (Option.some.inj hx)
        decide +kernel
  exact ⟨hparse, hshort, (fold_agrees_with_evaluation none hparse
    (by simp [entries, Scalar.int?]) hshort).1 0 (by decide +kernel)⟩

/-- A square is folded that has too many digits to be written. -/
theorem Expr.fold_square_of_long :
    let known : Table Json Scalar := .ofList [(.str "A", .int (10 ^ 2200))]
    let e := Expr.binary .mul (.name "A") (.name "A")
    Guard.parse "A * A" = .ok e ∧ e.fold known = some (10 ^ 4400) ∧
    ¬∃ literal, (⟨none, .empty⟩ : Engine).evaluate (.str "A * A") (known.mapValues .ofScalar) none
      = .ok literal := by
  intro known e
  have hanswer : ((⟨none, .empty⟩ : Engine).evaluate (.str "A * A") (known.mapValues .ofScalar)
      none).toOption = none := by decide +kernel
  refine ⟨by decide +kernel, by decide +kernel, fun ⟨literal, h⟩ => ?_⟩
  rw [h] at hanswer
  cases hanswer

end Branchwise
