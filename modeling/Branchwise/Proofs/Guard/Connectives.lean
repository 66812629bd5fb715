import Branchwise.Proofs.Guard.Composition
import Branchwise.Proofs.Guard.Meaning

/-!
# What composed guards mean

A text has a truth value where it is read as a guard and the guard has a value.  The negation of a
text has the other one, and the conjunction of texts holds exactly if all of them hold.  A
disjunction is written without parentheses around its parts, so what is read may group them in
another way; but `||` is associative even where operands have no value.
-/

namespace Branchwise

open Branchwise.Expr List Value

@[simp]
theorem Value.truth_bool {K : Type} [Field K] [LinearOrder K] (b : Bool) :
    (Value.bool b : Value K).truth = b := rfl

namespace Expr

variable {K : Type} [Field K] [LinearOrder K] {scope : NameScope} {a : InputValues K}
  {l r e : Expr} {p q : Bool} {v : Value K}

/-- Whether a guard has a value that is true, or one that is not. -/
def TruthIs (scope : NameScope) (a : InputValues K) (e : Expr) (p : Bool) : Prop :=
  ∃ v, e.evaluate scope a = .ok v ∧ v.truth = p

theorem TruthIs.not (h : e.TruthIs scope a p) : (unary .not e).TruthIs scope a (!p) := by
  obtain ⟨v, hv, rfl⟩ := h
  exact ⟨.bool (!v.truth), by rw [evaluate, hv]; rfl, rfl⟩

theorem evaluate_binary_of_error {op : BinaryOp} {fault : EvaluationFault}
    (h : l.evaluate scope a = .error fault) : (binary op l r).evaluate scope a = .error fault := by
  rw [evaluate, h]
  rfl

theorem evaluate_binary_of_ok {op : BinaryOp} (h : l.evaluate scope a = .ok v) :
    (binary op l r).evaluate scope a =
      match decided? op v with
      | some w => .ok w
      | none => (r.evaluate scope a).bind (operate op v) := by
  rw [evaluate, h]
  rfl

theorem evaluate_and_of_ok (h : l.evaluate scope a = .ok v) :
    (binary .and l r).evaluate scope a =
      if v.truth then (r.evaluate scope a).map fun w => .bool w.truth else .ok (.bool false) := by
  rw [evaluate_binary_of_ok h]
  cases hv : v.truth <;> simp only [decided?, hv]
  · rfl
  · cases r.evaluate scope a <;> simp [Except.bind, Except.map, operate, hv]

theorem evaluate_or_of_ok (h : l.evaluate scope a = .ok v) :
    (binary .or l r).evaluate scope a =
      if v.truth then .ok (.bool true) else (r.evaluate scope a).map fun w => .bool w.truth := by
  rw [evaluate_binary_of_ok h]
  cases hv : v.truth <;> simp only [decided?, hv]
  · cases r.evaluate scope a <;> simp [Except.bind, Except.map, operate, hv]
  · rfl

theorem truthIs_and_iff :
    (binary .and l r).TruthIs scope a true ↔ l.TruthIs scope a true ∧ r.TruthIs scope a true := by
  cases hl : l.evaluate scope a with
  | error fault =>
    simp only [TruthIs, hl, evaluate_binary_of_error hl]
    simp
  | ok v =>
    simp only [TruthIs, hl, evaluate_and_of_ok hl]
    cases hv : v.truth with
    | false => simp [hv]
    | true =>
      cases hr : r.evaluate scope a with
      | error fault => simp [Except.map]
      | ok w => simp [Except.map, hv]

theorem truthIs_foldl_and_iff {es : List Expr} :
    (es.foldl (.binary .and) e).TruthIs scope a true ↔ ∀ x ∈ e :: es, x.TruthIs scope a true := by
  induction es generalizing e with
  | nil => simp
  | cons x es ih => simp [ih, truthIs_and_iff, and_assoc]

theorem TruthIs.or (hl : l.TruthIs scope a p) (hr : r.TruthIs scope a q) :
    (binary .or l r).TruthIs scope a (p || q) := by
  obtain ⟨v, hv, rfl⟩ := hl
  obtain ⟨w, hw, rfl⟩ := hr
  rw [TruthIs, evaluate_or_of_ok hv, hw]
  cases v.truth with
  | true => exact ⟨_, rfl, rfl⟩
  | false => exact ⟨_, rfl, rfl⟩

theorem evaluate_or_assoc (e l r : Expr) :
    (binary .or (.binary .or e l) r).evaluate scope a =
      (binary .or e (.binary .or l r)).evaluate scope a := by
  cases he : e.evaluate scope a with
  | error fault =>
    rw [evaluate_binary_of_error he, evaluate_binary_of_error (evaluate_binary_of_error he)]
  | ok v =>
    have hel := evaluate_or_of_ok (r := l) he
    rw [evaluate_or_of_ok he]
    cases hv : v.truth with
    | true =>
      rw [hv] at hel
      rw [evaluate_or_of_ok hel]
      rfl
    | false =>
      rw [hv] at hel
      cases hl : l.evaluate scope a with
      | error fault =>
        rw [hl] at hel
        rw [evaluate_binary_of_error hel, evaluate_binary_of_error hl]
        rfl
      | ok w =>
        rw [hl] at hel
        rw [evaluate_or_of_ok hel, evaluate_or_of_ok hl]
        cases hw : w.truth with
        | true => simp [hw, Except.map]
        | false => cases r.evaluate scope a <;> simp [hw, Except.map]

theorem evaluate_or_congr {l' : Expr} (h : l.evaluate scope a = l'.evaluate scope a) (r : Expr) :
    (binary .or l r).evaluate scope a = (binary .or l' r).evaluate scope a := by
  rw [evaluate, evaluate, h]

end Expr

namespace Guard

variable {K : Type} [Field K] [LinearOrder K] (scope : NameScope) (a : InputValues K) {p : Bool}
  {text t : String}

/-- Whether a text is a guard with a value that is true, or with one that is not. -/
def TruthIs (text : String) (p : Bool) : Prop := ∃ e, parse text = .ok e ∧ e.TruthIs scope a p

def Holds (text : String) : Prop := TruthIs scope a text true

variable {scope a}

theorem TruthIs.unique {q : Bool} (hp : TruthIs scope a text p)
    (hq : TruthIs scope a text q) : p = q := by
  obtain ⟨e, he, v, hv, rfl⟩ := hp
  obtain ⟨e', he', v', hv', rfl⟩ := hq
  cases he.symm.trans he'
  cases hv.symm.trans hv'
  rfl

theorem TruthIs.holds_iff (h : TruthIs scope a text p) : Holds scope a text ↔ p :=
  ⟨h.unique, by rintro rfl; exact h⟩

theorem TruthIs.negate (h : TruthIs scope a text p) : TruthIs scope a (negate text) (!p) := by
  obtain ⟨e, he, htruth⟩ := h
  exact ⟨.unary .not e, (parse_negate_eq_ok_iff (balanced_of_parse he)).mpr ⟨e, he, rfl⟩,
    htruth.not⟩

theorem holds_conjoin_iff {ts : List String}
    (hblank : ∀ u ∈ t :: ts, Text.isAllBlank u = false) (hts : ∀ u ∈ t :: ts, Balanced u) :
    Holds scope a (conjoin (t :: ts)) ↔ ∀ u ∈ t :: ts, Holds scope a u := by
  constructor
  · rintro ⟨e, he, htruth⟩ u hu
    obtain ⟨e1, es, hes, rfl⟩ := (parse_conjoin_eq_ok_iff hblank hts).mp he
    obtain ⟨x, hx, hparse⟩ := (mapM_eq_ok hes).1 u hu
    exact ⟨x, hparse, truthIs_foldl_and_iff.mp htruth x hx⟩
  · intro h
    have hparse : ∀ u ∈ t :: ts, ∃ e, parse u = .ok e := by
      intro u hu
      obtain ⟨e, he, -⟩ := h u hu
      exact ⟨e, he⟩
    obtain ⟨e, he⟩ := (exists_parse_conjoin_iff hblank hts).mpr hparse
    refine ⟨e, he, ?_⟩
    obtain ⟨e1, es, hes, rfl⟩ := (parse_conjoin_eq_ok_iff hblank hts).mp he
    refine truthIs_foldl_and_iff.mpr fun x hx => ?_
    obtain ⟨u, hu, hux⟩ := (mapM_eq_ok hes).2 x hx
    obtain ⟨x', hx', htruth⟩ := h u hu
    cases hux.symm.trans hx'
    exact htruth

/-! ## Disjunctions -/

variable (scope a) in
theorem Written.exists_or {k : Nat} {t : List Char} {r : Expr} (ht : Written .full k t r)
    {s : List Char} {e : Expr} (hs : Written .full 0 s e) {b1 b2 : List Char} (h1 : Blanks b1)
    (h2 : Blanks b2) :
    ∃ e', Written .full 0 (s ++ (b1 ++ (BinaryOp.or.symbol.toList ++ (b2 ++ t)))) e' ∧
      e'.evaluate scope a = (Expr.binary .or e r).evaluate scope a := by
  -- An operand without an outermost `||` of its own is taken as it is.
  have htight : ∀ {k t r}, Written .full k t r → 0 < k →
      ∃ e', Written .full 0 (s ++ (b1 ++ (BinaryOp.or.symbol.toList ++ (b2 ++ t)))) e' ∧
        e'.evaluate scope a = (Expr.binary .or e r).evaluate scope a :=
    fun ht hk => ⟨_, @Written.binary .full .or _ _ _ _ _ _ h1 h2 hs (ht.of_le hk), rfl⟩
  induction ht with
  | literal h => exact htight (.literal h) (by decide)
  | name h => exact htight (.name h) (by decide)
  | paren hb1 hb2 h _ => exact htight (.paren hb1 hb2 h) (by decide)
  | not hb h _ => exact htight (.not hb h) (by decide)
  | neg hb h hnumber _ => exact htight (.neg hb h hnumber) (by decide)
  | fold hb h hsign hnumber _ => exact htight (.fold hb h hsign hnumber) (by decide)
  | plus hb h hsign _ => exact htight (.plus hb h hsign) (by decide)
  | @binary op c1 c2 tl tr l x hc1 hc2 hl hx ihl _ =>
    by_cases hop : op = .or
    · -- What is read groups the left operand with `s` first.
      subst hop
      obtain ⟨e1, he1, heval⟩ := ihl
      refine ⟨.binary .or e1 x, ?_, ?_⟩
      · have hor := @Written.binary .full .or _ _ _ _ _ _ hc1 hc2 he1 hx
        simp only [append_assoc] at hor
        exact hor
      · rw [evaluate_or_congr heval, evaluate_or_assoc]
    · refine htight (.binary hc1 hc2 hl hx) ?_
      cases op <;> first | exact absurd rfl hop | decide
  | looser h _ => exact htight h (Nat.succ_pos _)

theorem TruthIs.or {s : String} {q : Bool} (hs : TruthIs scope a s p)
    (ht : TruthIs scope a t q) : TruthIs scope a (s ++ " || " ++ t) (p || q) := by
  obtain ⟨l, hl, hp⟩ := hs
  obtain ⟨r, hr, hq⟩ := ht
  obtain ⟨b1, u, b2, hb1, hb2, hsu, hu⟩ := parse_eq_ok_iff.mp hl
  obtain ⟨c1, w, c2, hc1, hc2, htw, hw⟩ := parse_eq_ok_iff.mp hr
  obtain ⟨e, he, heval⟩ := hw.exists_or scope a hu (hb2.append .space) (Blanks.space.append hc1)
  refine ⟨e, parse_eq_ok_iff.mpr ⟨b1, _, c2, hb1, hc2, toList_operator .or hsu htw, he⟩, ?_⟩
  rw [Expr.TruthIs, heval]
  exact hp.or hq

theorem join_cons_cons (sep t u : String) (ts : List String) :
    Text.join sep (t :: u :: ts) = Text.join sep ((t ++ sep ++ u) :: ts) := by
  cases ts with
  | nil => rw [Text.join, Text.join, String.intercalate_cons_cons, String.intercalate_singleton,
      String.intercalate_singleton]
  | cons v ts =>
    simp only [Text.join, String.intercalate_cons_cons, String.append_assoc]

theorem exists_truthIs_join_or {ts : List String} (h : ∀ u ∈ t :: ts, ∃ p, TruthIs scope a u p) :
    ∃ p, TruthIs scope a (Text.join " || " (t :: ts)) p ∧
      (p ↔ ∃ u ∈ t :: ts, Holds scope a u) := by
  induction ts generalizing t with
  | nil =>
    obtain ⟨p, hp⟩ := h t mem_cons_self
    refine ⟨p, by simpa [Text.join] using hp, ?_⟩
    rw [← hp.holds_iff]
    simp
  | cons u ts ih =>
    rw [forall_mem_cons, forall_mem_cons] at h
    obtain ⟨⟨p, hp⟩, ⟨q, hq⟩, hts⟩ := h
    have hor := hp.or hq
    obtain ⟨r, hr, hiff⟩ := ih (forall_mem_cons.mpr ⟨⟨_, hor⟩, hts⟩)
    refine ⟨r, by rwa [join_cons_cons], ?_⟩
    rw [hiff]
    simp only [exists_mem_cons_iff, hor.holds_iff, hp.holds_iff, hq.holds_iff,
      Bool.or_eq_true, or_assoc]

end Guard

end Branchwise
