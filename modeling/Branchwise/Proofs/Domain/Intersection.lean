import Branchwise.Domain.Basic
import Branchwise.Proofs.Data.Table
import Branchwise.Proofs.Number.Order

/-!
# Intersection of domains

A domain over numbers admits a set of places of the closed line, `Admits`.  Intersecting two domains
of a variable succeeds and admits what both admit, and merging a list leaves for every variable the
conjunction of all that is said about it.
-/

namespace Branchwise

open List Option Table

def Answers (test : Except Error Bool) (P : Prop) : Prop := ∃ b, test = .ok b ∧ (b ↔ P)

namespace Answers

variable {test test' : Except Error Bool} {P Q : Prop}

theorem pure {b : Bool} (h : b ↔ P) : Answers (.ok b) P := ⟨b, rfl, h⟩

theorem imp (h : Answers test P) (hiff : P ↔ Q) : Answers test Q := by
  obtain ⟨b, hb, hP⟩ := h
  exact ⟨b, hb, hP.trans hiff⟩

theorem andThen (h : Answers test P) (h' : Answers test' Q) :
    Answers (do
      if !(← test) then return false
      test') (P ∧ Q) := by
  obtain ⟨b, rfl, hP⟩ := h
  obtain ⟨b', rfl, hQ⟩ := h'
  cases b with
  | false => exact ⟨false, rfl, iff_of_false Bool.false_ne_true fun h => nomatch hP.mpr h.1⟩
  | true => exact ⟨b', rfl, hQ.trans (and_iff_right (hP.mp rfl)).symm⟩

theorem eq_ok_true_iff (h : Answers test P) : test = .ok true ↔ P := by
  obtain ⟨b, rfl, hP⟩ := h
  rw [Except.ok.injEq, hP]

end Answers

theorem filterAuxM_of_answers {α : Type} {test : α → Except Error Bool} (P : α → Prop)
    (xs acc : List α) (h : ∀ x ∈ xs, Answers (test x) (P x)) :
    ∃ ys, xs.filterAuxM test acc = .ok ys ∧ ∀ x, x ∈ ys ↔ (x ∈ xs ∧ P x) ∨ x ∈ acc := by
  induction xs generalizing acc with
  | nil => exact ⟨acc, rfl, by simp⟩
  | cons x xs ih =>
    obtain ⟨b, hb, hP⟩ := h x mem_cons_self
    obtain ⟨ys, hys, hmem⟩ :=
      ih (cond b (x :: acc) acc) fun y hy => h y (mem_cons_of_mem _ hy)
    refine ⟨ys, ?_, fun y => ?_⟩
    · rw [filterAuxM, hb]
      exact hys
    · rw [hmem]
      cases b with
      | false =>
        have hx : ¬P x := fun h => nomatch hP.mpr h
        simp only [mem_cons]
        constructor
        · rintro (⟨hy, hPy⟩ | hy)
          · exact .inl ⟨.inr hy, hPy⟩
          · exact .inr hy
        · rintro (⟨rfl | hy, hPy⟩ | hy)
          · exact absurd hPy hx
          · exact .inl ⟨hy, hPy⟩
          · exact .inr hy
      | true =>
        have hx : P x := hP.mp rfl
        simp only [cond_true, mem_cons]
        constructor
        · rintro (⟨hy, hPy⟩ | rfl | hy)
          · exact .inl ⟨.inr hy, hPy⟩
          · exact .inl ⟨.inl rfl, hx⟩
          · exact .inr hy
        · rintro (⟨rfl | hy, hPy⟩ | hy)
          · exact .inr (.inl rfl)
          · exact .inl ⟨hy, hPy⟩
          · exact .inr (.inr hy)

theorem filterM_of_answers {α : Type} {test : α → Except Error Bool} (P : α → Prop) (xs : List α)
    (h : ∀ x ∈ xs, Answers (test x) (P x)) :
    ∃ ys, xs.filterM test = .ok ys ∧ ∀ x, x ∈ ys ↔ x ∈ xs ∧ P x := by
  obtain ⟨ys, hys, hmem⟩ := filterAuxM_of_answers P xs [] h
  refine ⟨ys.reverse, ?_, fun x => ?_⟩
  · rw [filterM, hys]
    rfl
  · rw [mem_reverse, hmem, or_iff_left not_mem_nil]

namespace Json

def IsBound (j : Json) : Prop := j = .null ∨ j.IsNumber

def IsText (j : Json) : Prop := ∃ s, j = .str s

theorem separates_isText : Table.Separates IsText := by
  rintro _ _ ⟨s, rfl⟩ ⟨t, rfl⟩
  show decide (s = t) ↔ _
  rw [decide_eq_true_iff, Json.str.injEq]

theorem isolated_str (s : String) : Table.Isolated (str s) := by
  have hself : str s == str s := (separates_isText _ _ ⟨s, rfl⟩ ⟨s, rfl⟩).mpr rfl
  intro k
  refine ⟨⟨fun h => ?_, fun h => h ▸ hself⟩, ⟨fun h => ?_, fun h => h ▸ hself⟩⟩
  · cases k with
    | str t => exact (separates_isText _ _ ⟨t, rfl⟩ ⟨s, rfl⟩).mp h
    | null | bool | int | real | arr | obj => cases h
  · cases k with
    | str t => exact ((separates_isText _ _ ⟨s, rfl⟩ ⟨t, rfl⟩).mp h).symm
    | null | bool | int | real | arr | obj => cases h

end Json

namespace Domain

open Json

variable {p q v : Json} {x : Extended}

structure IsNumeric (d : Domain) : Prop where
  variableName : d.variableName.IsText
  lower : d.lower.IsBound
  upper : d.upper.IsBound
  allowed : ∀ vs, d.allowed = some vs → ∀ v ∈ vs, v.IsNumber
  exact : d.exact.IsBound
  guard : d.guard = .null ∨ d.guard.IsText
  source : d.source.IsText

def Between (lo hi : Option Extended) (x : Extended) : Prop :=
  (∀ l, lo = some l → l ≤ x) ∧ ∀ h, hi = some h → x ≤ h

def Listed (allowed : Option (List Json)) (x : Extended) : Prop :=
  ∀ vs, allowed = some vs → ∃ v ∈ vs, v.value? = some x

theorem between_null (x : Extended) : Between Json.null.value? Json.null.value? x :=
  ⟨fun _ h => (nomatch h), fun _ h => (nomatch h)⟩

theorem listed_none (x : Extended) : Listed none x := fun _ h => nomatch h

theorem listed_some_iff (vs : List Json) (x : Extended) :
    Listed (some vs) x ↔ ∃ v ∈ vs, v.value? = some x :=
  ⟨fun h => h vs rfl, fun h _ hvs => Option.some.inj hvs ▸ h⟩

theorem not_listed_nil (x : Extended) : ¬Listed (some []) x := fun h => by
  obtain ⟨_, hv, _⟩ := h [] rfl
  exact not_mem_nil hv

def Admits (d : Domain) (x : Extended) : Prop :=
  (∀ e, d.exact.value? = some e → x = e) ∧ Listed d.allowed x ∧
    Between d.lower.value? d.upper.value? x

/-! ## Tests on numbers -/

theorem answers_ifGiven {bound : Json} (hbound : bound.IsBound) (test : Json → Except Error Bool)
    (P : Extended → Prop) (htest : ∀ y, bound.value? = some y → Answers (test bound) (P y)) :
    Answers (ifGiven bound test) (∀ y, bound.value? = some y → P y) := by
  unfold ifGiven
  rcases hbound with rfl | hnum
  · exact .pure ⟨fun _ _ h => (nomatch h), fun _ => rfl⟩
  · obtain ⟨y, hy⟩ := hnum.exists_value
    rw [if_neg (by rw [isNull_of_value? hy]; exact Bool.false_ne_true)]
    refine (htest y hy).imp ⟨fun h z hz => ?_, fun h => h y hy⟩
    obtain rfl : y = z := Option.some.inj (hy.symm.trans hz)
    exact h

theorem answers_not_less {a b : Json} {y : Extended} (ha : a.value? = some x)
    (hb : b.value? = some y) : Answers (do return !(← a.less b)) (y ≤ x) := by
  rw [less_of_value? ha hb]
  refine .pure ?_
  rw [Bool.not_eq_true', decide_eq_false_iff_not, not_lt]

theorem answers_atMost {a b : Json} {y : Extended} (ha : a.value? = some x)
    (hb : b.value? = some y) : Answers (a.atMost b) (x ≤ y) := by
  rw [atMost_of_value? ha hb]
  exact .pure decide_eq_true_iff

theorem lists_eq_true_iff {allowed : Option (List Json)}
    (hallowed : ∀ vs, allowed = some vs → ∀ v ∈ vs, v.IsNumber) (hv : v.value? = some x) :
    lists allowed v ↔ Listed allowed x := by
  unfold lists Listed
  cases allowed with
  | none => exact ⟨fun _ _ h => (nomatch h), fun _ => rfl⟩
  | some vs =>
    rw [all_some, contains_of_value? (hallowed vs rfl) hv, decide_eq_true_iff]
    exact (listed_some_iff vs x).symm

variable {d a b : Domain}

theorem IsNumeric.answers_admits (hd : d.IsNumeric)
    (hv : v.value? = some x) : Answers (d.admits v) (d.Admits x) := by
  have hexact : Answers (.ok (d.exact.isNull || v.equals d.exact))
      (∀ e, d.exact.value? = some e → x = e) := by
    refine .pure ?_
    rcases hd.exact with hnull | hnum
    · rw [hnull]
      exact ⟨fun _ _ h => (nomatch h), fun _ => rfl⟩
    · obtain ⟨e, he⟩ := hnum.exists_value
      rw [isNull_of_value? he, Bool.false_or, equals_of_value? hv he, decide_eq_true_iff, he]
      exact ⟨fun h _ he => h.trans (Option.some.inj he), fun h => h e rfl⟩
  have hlist : Answers (.ok (lists d.allowed v)) (Listed d.allowed x) :=
    .pure (lists_eq_true_iff hd.allowed hv)
  have hlower := answers_ifGiven hd.lower (fun lo => return !(← v.less lo)) (· ≤ x)
    fun _ hy => answers_not_less hv hy
  have hupper := answers_ifGiven hd.upper (fun hi => return !(← hi.less v)) (x ≤ ·)
    fun _ hy => answers_not_less hy hv
  exact hexact.andThen (hlist.andThen (hlower.andThen hupper))

theorem IsNumeric.answers_inBounds (hd : d.IsNumeric)
    (hv : v.value? = some x) :
    Answers (d.inBounds v) (Between d.lower.value? d.upper.value? x) :=
  (answers_ifGiven hd.lower (·.atMost v) (· ≤ x) fun _ hy => answers_atMost hy hv).andThen
    (answers_ifGiven hd.upper (v.atMost ·) (x ≤ ·) fun _ hy => answers_atMost hv hy)

/-! ## Joining the data -/

theorem exists_tighter {pick : Json → Json → Except Error Json} (P : Extended → Extended → Prop)
    (hpick : ∀ p q y z, p.value? = some y → q.value? = some z →
      ∃ c w, pick p q = .ok c ∧ c.value? = some w ∧ ∀ x, P w x ↔ P y x ∧ P z x)
    (hp : p.IsBound) (hq : q.IsBound) :
    ∃ c, tighter pick p q = .ok c ∧ c.IsBound ∧ ∀ x,
      (∀ w, c.value? = some w → P w x) ↔
        (∀ y, p.value? = some y → P y x) ∧ ∀ z, q.value? = some z → P z x := by
  unfold tighter
  rcases hp with rfl | hp
  · exact ⟨q, rfl, hq, fun x => (and_iff_right fun y h => nomatch h).symm⟩
  obtain ⟨y, hy⟩ := hp.exists_value
  rw [if_neg (by rw [isNull_of_value? hy]; exact Bool.false_ne_true)]
  rcases hq with rfl | hq
  · exact ⟨p, rfl, .inr hp, fun x => (and_iff_left fun z h => nomatch h).symm⟩
  obtain ⟨z, hz⟩ := hq.exists_value
  rw [if_neg (by rw [isNull_of_value? hz]; exact Bool.false_ne_true)]
  obtain ⟨c, w, hc, hw, hiff⟩ := hpick p q y z hy hz
  refine ⟨c, hc, .inr (by rw [IsNumber, hw]; rfl), fun x => ?_⟩
  simp only [hw, hy, hz, Option.some.injEq, forall_eq', hiff]

theorem listed_commonValues {vs ws : Option (List Json)}
    (hvs : ∀ l, vs = some l → ∀ v ∈ l, v.IsNumber) (hws : ∀ l, ws = some l → ∀ v ∈ l, v.IsNumber)
    (x : Extended) : Listed (commonValues vs ws) x ↔ Listed vs x ∧ Listed ws x := by
  cases vs with
  | none => exact (and_iff_right (listed_none x)).symm
  | some vs =>
    cases ws with
    | none => exact (and_iff_left (listed_none x)).symm
    | some ws =>
      rw [commonValues, listed_some_iff, listed_some_iff, listed_some_iff]
      constructor
      · rintro ⟨v, hv, hx⟩
        rw [mem_filter, contains_of_value? (hws ws rfl) hx, decide_eq_true_iff] at hv
        exact ⟨⟨v, hv.1, hx⟩, hv.2⟩
      · rintro ⟨⟨v, hv, hx⟩, hw⟩
        refine ⟨v, mem_filter.mpr ⟨hv, ?_⟩, hx⟩
        rwa [contains_of_value? (hws ws rfl) hx, decide_eq_true_iff]

theorem isNumber_of_mem_commonValues {vs ws : Option (List Json)}
    (hvs : ∀ l, vs = some l → ∀ v ∈ l, v.IsNumber) (hws : ∀ l, ws = some l → ∀ v ∈ l, v.IsNumber) :
    ∀ l, commonValues vs ws = some l → ∀ v ∈ l, v.IsNumber := by
  cases vs with
  | none => exact hws
  | some vs =>
    cases ws with
    | none => exact hvs
    | some ws =>
      intro l hl v hv
      cases hl
      exact hvs vs rfl v (mem_of_mem_filter hv)

theorem clashes_eq_true_iff (ha : a.IsNumeric) (hb : b.IsNumeric) :
    a.clashes b ↔
      ∃ x y, a.exact.value? = some x ∧ b.exact.value? = some y ∧ x ≠ y := by
  unfold clashes
  rcases ha.exact with hnull | hx
  · rw [hnull]
    exact iff_of_false Bool.false_ne_true fun ⟨_, _, h, _⟩ => nomatch h
  obtain ⟨x, hx⟩ := hx.exists_value
  rcases hb.exact with hnull | hy
  · rw [hnull, isNull_of_value? hx]
    exact iff_of_false Bool.false_ne_true fun ⟨_, _, _, h, _⟩ => nomatch h
  obtain ⟨y, hy⟩ := hy.exists_value
  rw [isNull_of_value? hx, isNull_of_value? hy, equals_of_value? hx hy, hx, hy]
  simp

theorem exact_of_not_clashes (ha : a.IsNumeric) (hb : b.IsNumeric) (hclash : ¬a.clashes b)
    (x : Extended) :
    (∀ e, (if b.exact.isNull then a.exact else b.exact).value? = some e → x = e) ↔
      (∀ e, a.exact.value? = some e → x = e) ∧ ∀ e, b.exact.value? = some e → x = e := by
  rcases hb.exact with hnull | hz
  · rw [hnull]
    exact (and_iff_left fun e h => nomatch h).symm
  obtain ⟨z, hz⟩ := hz.exists_value
  rw [isNull_of_value? hz]
  refine ⟨fun h => ⟨fun e he => ?_, h⟩, And.right⟩
  have hez : e = z := not_not.mp fun hne =>
    hclash ((clashes_eq_true_iff ha hb).mpr ⟨e, z, he, hz, hne⟩)
  exact hez ▸ h z hz

theorem exists_mapM_strip (gs : List Json) (h : ∀ g ∈ gs, g.IsText) :
    ∃ ts, gs.mapM Json.strip = .ok ts := by
  induction gs with
  | nil => exact ⟨[], rfl⟩
  | cons g gs ih =>
    obtain ⟨s, rfl⟩ := h g mem_cons_self
    obtain ⟨ts, hts⟩ := ih fun g hg => h g (mem_cons_of_mem _ hg)
    refine ⟨Text.trim s :: ts, ?_⟩
    rw [mapM_cons, hts]
    rfl

theorem exists_bothGuards (hp : p = .null ∨ p.IsText) (hq : q = .null ∨ q.IsText) :
    ∃ g, bothGuards p q = .ok g ∧ (g = .null ∨ g.IsText) := by
  have hgiven : ∀ g ∈ [p, q].filter fun g => !g.isVoid, g.IsText := by
    intro g hg
    obtain ⟨hg, hvoid⟩ := mem_filter.mp hg
    have hcases : g = .null ∨ g.IsText := by
      rcases mem_pair.mp hg with rfl | rfl
      · exact hp
      · exact hq
    refine hcases.resolve_left ?_
    rintro rfl
    cases hvoid
  unfold bothGuards
  generalize [p, q].filter (fun g => !g.isVoid) = gs at hgiven ⊢
  match gs, hgiven with
  | [], _ => exact ⟨.null, rfl, .inl rfl⟩
  | [g], hgiven => exact ⟨g, rfl, .inr (hgiven g mem_cons_self)⟩
  | g :: g' :: gs, hgiven =>
    obtain ⟨ts, hts⟩ := exists_mapM_strip _ hgiven
    refine ⟨.str (Guard.conjoin ((g :: g' :: gs).map textOrEmpty)), ?_, .inr ⟨_, rfl⟩⟩
    simp only [hts]
    rfl

theorem exists_joinSources (hp : p.IsText) (hq : q.IsText) :
    ∃ s, joinSources p q = .ok s ∧ s.IsText := by
  obtain ⟨s, rfl⟩ := hp
  obtain ⟨t, rfl⟩ := hq
  exact ⟨_, rfl, _, rfl⟩

/-- A domain over numbers of a given variable that admits certain places. -/
structure Shows (d : Domain) (name : Json) (P : Extended → Prop) : Prop where
  isNumeric : d.IsNumeric
  variableName_eq : d.variableName = name
  admits_iff : ∀ x, d.Admits x ↔ P x

theorem exists_join (ha : a.IsNumeric) (hb : b.IsNumeric) :
    ∃ c, a.join b = .ok c ∧ c.Shows a.variableName fun x => a.Admits x ∧ b.Admits x := by
  obtain ⟨lo, hlo, hloBound, hloIff⟩ := exists_tighter (fun l x => l ≤ x)
    (fun p q y z hy hz => by
      obtain ⟨c, hc, hw⟩ := exists_larger hy hz
      exact ⟨c, _, hc, hw, fun x => max_le_iff⟩) ha.lower hb.lower
  obtain ⟨hi, hhi, hhiBound, hhiIff⟩ := exists_tighter (fun h x => x ≤ h)
    (fun p q y z hy hz => by
      obtain ⟨c, hc, hw⟩ := exists_smaller hy hz
      exact ⟨c, _, hc, hw, fun x => le_min_iff⟩) ha.upper hb.upper
  obtain ⟨g, hg, hguard⟩ := exists_bothGuards ha.guard hb.guard
  obtain ⟨s, hs, hsource⟩ := exists_joinSources ha.source hb.source
  have hcommon := isNumber_of_mem_commonValues ha.allowed hb.allowed
  have heq : a.join b = .ok ⟨a.variableName, lo, hi,
      if a.clashes b then some [] else commonValues a.allowed b.allowed,
      if a.clashes b then .null else if b.exact.isNull then a.exact else b.exact, g, s⟩ := by
    simp only [join, hlo, hhi, hg, hs]
    rfl
  refine ⟨_, heq, ⟨⟨ha.variableName, hloBound, hhiBound, ?_, ?_, hguard, hsource⟩, rfl, ?_⟩⟩
  · intro l hl
    dsimp only at hl
    split at hl
    · cases hl
      exact nofun
    · exact hcommon l hl
  · dsimp only
    split
    · exact .inl rfl
    · split
      · exact ha.exact
      · exact hb.exact
  · intro x
    unfold Admits Between
    dsimp only
    rw [hloIff, hhiIff]
    by_cases hclash : a.clashes b
    · -- Different exact values leave nothing, as the empty list does.
      rw [if_pos hclash, if_pos hclash]
      obtain ⟨y, z, hy, hz, hne⟩ := (clashes_eq_true_iff ha hb).mp hclash
      exact iff_of_false (fun h => not_listed_nil x h.2.1) fun h =>
        hne ((h.1.1 y hy).symm.trans (h.2.1 z hz))
    · rw [if_neg hclash, if_neg hclash, listed_commonValues ha.allowed hb.allowed,
        exact_of_not_clashes ha hb hclash]
      tauto

/-! ## Normal form -/

theorem exists_normalize_of_allowed (hd : d.IsNumeric) (hnull : d.exact = .null) {vs : List Json}
    (hallowed : d.allowed = some vs) :
    ∃ c, d.normalize = .ok c ∧ c.Shows d.variableName d.Admits := by
  have hanswers : ∀ v ∈ vs, Answers (d.inBounds v)
      (∀ x, v.value? = some x → Between d.lower.value? d.upper.value? x) := by
    intro v hv
    obtain ⟨x, hx⟩ := (hd.allowed vs hallowed v hv).exists_value
    refine (hd.answers_inBounds hx).imp ⟨fun h y hy => ?_, fun h => h x hx⟩
    exact Option.some.inj (hx.symm.trans hy) ▸ h
  obtain ⟨ws, hws, hmem⟩ := filterM_of_answers _ vs hanswers
  refine ⟨{ d with lower := .null, upper := .null, allowed := some ws }, ?_,
    ⟨⟨hd.variableName, .inl rfl, .inl rfl, ?_, hd.exact, hd.guard, hd.source⟩, rfl, fun x => ?_⟩⟩
  · simp only [normalize, hnull, hallowed, hws]
    rfl
  · intro l hl v hv
    cases hl
    exact hd.allowed vs hallowed v ((hmem v).mp hv).1
  · unfold Admits
    rw [and_iff_left (between_null x), hallowed, listed_some_iff, listed_some_iff]
    refine and_congr_right fun _ => ⟨?_, ?_⟩
    · rintro ⟨v, hv, hx⟩
      obtain ⟨hv, hbetween⟩ := (hmem v).mp hv
      exact ⟨⟨v, hv, hx⟩, hbetween x hx⟩
    · rintro ⟨⟨v, hv, hx⟩, hbetween⟩
      exact ⟨v, (hmem v).mpr ⟨hv, fun y hy => Option.some.inj (hx.symm.trans hy) ▸ hbetween⟩, hx⟩

theorem exists_normalize_of_exact (hd : d.IsNumeric) {e : Extended} (he : d.exact.value? = some e) :
    ∃ c, d.normalize = .ok c ∧ c.Shows d.variableName d.Admits := by
  obtain ⟨p, hp, hpIff⟩ := hd.answers_inBounds he
  have hlisted := lists_eq_true_iff hd.allowed he
  by_cases hkept : p ∧ lists d.allowed d.exact
  · refine ⟨{ d with lower := .null, upper := .null, allowed := none }, ?_,
      ⟨⟨hd.variableName, .inl rfl, .inl rfl, fun l hl => (nomatch hl), hd.exact, hd.guard,
        hd.source⟩, rfl, fun x => ?_⟩⟩
    · simp only [normalize, isNull_of_value? he, hp, hkept.1, hkept.2]
      rfl
    · unfold Admits
      rw [and_iff_left (between_null x), and_iff_left (listed_none x)]
      refine (and_iff_left_of_imp fun h => ?_).symm
      obtain rfl := h e he
      exact ⟨hlisted.mp hkept.2, hpIff.mp hkept.1⟩
  · have hfalse : (p && lists d.allowed d.exact) = false := by
      rw [← Bool.not_eq_true, Bool.and_eq_true]
      exact hkept
    refine ⟨{ d with lower := .null, upper := .null, exact := .null, allowed := some [] }, ?_,
      ⟨⟨hd.variableName, .inl rfl, .inl rfl, ?_, .inl rfl, hd.guard, hd.source⟩, rfl, fun x => ?_⟩⟩
    · simp only [normalize, isNull_of_value? he, hp]
      show (if (p && lists d.allowed d.exact) then _ else _) = _
      rw [hfalse]
      rfl
    · rintro l hl v hv
      cases hl
      exact absurd hv not_mem_nil
    · refine iff_of_false (fun h => not_listed_nil x h.2.1) fun h => ?_
      obtain rfl := h.1 e he
      exact hkept ⟨hpIff.mpr h.2.2, hlisted.mpr h.2.1⟩

theorem exists_normalize (hd : d.IsNumeric) :
    ∃ c, d.normalize = .ok c ∧ c.Shows d.variableName d.Admits := by
  rcases hd.exact with hnull | hexact
  · cases hallowed : d.allowed with
    | none =>
      refine ⟨d, ?_, hd, rfl, fun _ => Iff.rfl⟩
      simp only [normalize, hnull, hallowed]
      rfl
    | some vs => exact exists_normalize_of_allowed hd hnull hallowed
  · obtain ⟨e, he⟩ := hexact.exists_value
    exact exists_normalize_of_exact hd he

theorem exists_intersect (ha : a.IsNumeric) (hb : b.IsNumeric)
    (hname : a.variableName = b.variableName) :
    ∃ c, a.intersect b = .ok c ∧ c.Shows a.variableName fun x => a.Admits x ∧ b.Admits x := by
  obtain ⟨j, hj, hjoin⟩ := exists_join ha hb
  obtain ⟨c, hc, hnormal⟩ := exists_normalize hjoin.isNumeric
  have hequals : b.variableName.equals a.variableName := by
    obtain ⟨s, hs⟩ := ha.variableName
    rw [← hname, hs]
    exact decide_eq_true rfl
  refine ⟨c, ?_, hnormal.isNumeric, hnormal.variableName_eq.trans hjoin.variableName_eq,
    fun x => (hnormal.admits_iff x).trans (hjoin.admits_iff x)⟩
  rw [intersect, hequals, hj]
  exact hc

/-! ## Merging -/

/-- A table has one domain for every variable of a list of domains, in order of first appearance,
and it admits what all domains of its variable admit. -/
structure Merged (ds : List Domain) (t : Table Json Domain) : Prop where
  keys_eq : t.keys = (ds.map Domain.variableName).eraseDups
  isText_of_mem : ∀ x ∈ t.keys, x.IsText
  isSome_iff : ∀ x, (t.get? x).isSome ↔ ∃ d ∈ ds, d.variableName = x
  shows : ∀ x c, t.get? x = some c →
    c.Shows x fun p => ∀ d ∈ ds, d.variableName = x → d.Admits p

theorem Merged.empty : Merged [] Table.empty where
  keys_eq := rfl
  isText_of_mem := nofun
  isSome_iff := fun _ =>
    iff_of_false Bool.false_ne_true fun ⟨_, hd, _⟩ => absurd hd not_mem_nil
  shows := fun _ _ h => nomatch h

theorem isText_of_get? {t : Table Json Domain} (ht : ∀ x ∈ t.keys, x.IsText) {x : Json} {c : Domain}
    (h : t.get? x = some c) : x.IsText := by
  obtain ⟨e, he, _⟩ := map_eq_some_iff.mp h
  obtain ⟨s, hs⟩ := ht e.1 (mem_map_of_mem (mem_of_find?_eq_some he))
  have hbeq := find?_some he
  rw [hs] at hbeq
  exact ⟨s, (isolated_str s x).2.mp hbeq⟩

section Narrow

variable {ds : List Domain} {t : Table Json Domain}

section

variable (h : Merged ds t)
include h

section

variable (hd : d.IsNumeric)
include hd

theorem Merged.exists_narrow_eq :
    ∃ c, narrow t d = .ok (t.put d.variableName c) ∧ c.Shows d.variableName fun p =>
      ∀ e ∈ ds ++ [d], e.variableName = d.variableName → e.Admits p := by
  have hsplit (p : Extended) : (∀ e ∈ ds ++ [d], e.variableName = d.variableName → e.Admits p) ↔
      (∀ e ∈ ds, e.variableName = d.variableName → e.Admits p) ∧ d.Admits p := by
    rw [forall_mem_append, forall_mem_singleton]
    exact and_congr_right fun _ => ⟨fun h => h rfl, fun h _ => h⟩
  unfold narrow
  cases hget : t.get? d.variableName with
  | none =>
    have hnew : ∀ e ∈ ds, e.variableName ≠ d.variableName := fun e he heq => by
      have hsome := (h.isSome_iff d.variableName).mpr ⟨e, he, heq⟩
      rw [hget] at hsome
      cases hsome
    refine ⟨d, rfl, hd, rfl, fun p => ?_⟩
    rw [hsplit]
    exact (and_iff_right fun e he heq => absurd heq (hnew e he)).symm
  | some prev =>
    have hprev := h.shows _ _ hget
    obtain ⟨c, hc, hshows⟩ := exists_intersect hprev.isNumeric hd hprev.variableName_eq
    refine ⟨c, ?_, hshows.isNumeric, hshows.variableName_eq.trans hprev.variableName_eq,
      fun p => ?_⟩
    · simp only [hc]
      rfl
    · rw [hshows.admits_iff, hsplit, hprev.admits_iff]

theorem Merged.keys_put (c : Domain) :
    (t.put d.variableName c).keys = ((ds ++ [d]).map Domain.variableName).eraseDups := by
  obtain ⟨s, hs⟩ := hd.variableName
  have hcontains : t.contains d.variableName = t.keys.contains d.variableName := by
    rw [Bool.eq_iff_iff, contains_iff_of_separates separates_isText h.isText_of_mem ⟨s, hs⟩,
      hs, contains_iff_of_isolated (isolated_str s)]
  rw [Table.keys_put, hcontains, map_append, map_singleton, Table.eraseDups_concat, ← h.keys_eq]

theorem Merged.isText_of_mem_put (c : Domain) : ∀ x ∈ (t.put d.variableName c).keys, x.IsText := by
  intro x hx
  rw [Table.keys_put] at hx
  split at hx
  · exact h.isText_of_mem x hx
  · rcases mem_append.mp hx with hx | hx
    · exact h.isText_of_mem x hx
    · exact mem_singleton.mp hx ▸ hd.variableName

theorem Merged.get?_put_eq_some_iff (c : Domain) (x : Json) (c' : Domain) :
    (t.put d.variableName c).get? x = some c' ↔ d.variableName = x ∧ c = c' ∨ d.variableName ≠ x ∧
      t.get? x = some c' := by
  by_cases hx : x.IsText
  · rw [get?_put_of_separates separates_isText c h.isText_of_mem hd.variableName hx]
    by_cases heq : d.variableName = x
    · rw [if_pos ((separates_isText _ _ hd.variableName hx).mpr heq)]
      simp [heq]
    · rw [if_neg fun hbeq => heq ((separates_isText _ _ hd.variableName hx).mp hbeq)]
      simp [heq]
  · refine iff_of_false (fun hget => hx (isText_of_get? (h.isText_of_mem_put hd c) hget)) ?_
    rintro (⟨rfl, -⟩ | ⟨-, hget⟩)
    · exact hx hd.variableName
    · exact hx (isText_of_get? h.isText_of_mem hget)

theorem Merged.exists_narrow : ∃ t', narrow t d = .ok t' ∧ Merged (ds ++ [d]) t' := by
  obtain ⟨c, hc, hshows⟩ := h.exists_narrow_eq hd
  have hget := h.get?_put_eq_some_iff hd c
  refine ⟨t.put d.variableName c, hc, h.keys_put hd c, h.isText_of_mem_put hd c,
    fun x => ?_, ?_⟩
  · rw [isSome_iff_exists]
    constructor
    · rintro ⟨c', hc'⟩
      rcases (hget x c').mp hc' with ⟨heq, -⟩ | ⟨-, hold⟩
      · exact ⟨d, mem_concat_self, heq⟩
      · obtain ⟨e, he, heq⟩ := (h.isSome_iff x).mp (isSome_iff_exists.mpr ⟨c', hold⟩)
        exact ⟨e, mem_append_left _ he, heq⟩
    · rintro ⟨e, he, rfl⟩
      by_cases heq : d.variableName = e.variableName
      · exact ⟨c, (hget _ c).mpr (.inl ⟨heq, rfl⟩)⟩
      · have he : e ∈ ds := (mem_append.mp he).resolve_right fun he =>
          heq (mem_singleton.mp he ▸ rfl)
        obtain ⟨c', hc'⟩ := isSome_iff_exists.mp ((h.isSome_iff _).mpr ⟨e, he, rfl⟩)
        exact ⟨c', (hget _ c').mpr (.inr ⟨heq, hc'⟩)⟩
  · intro x c' hc'
    rcases (hget x c').mp hc' with ⟨rfl, rfl⟩ | ⟨hne, hold⟩
    · exact hshows
    · have hold := h.shows x c' hold
      refine ⟨hold.isNumeric, hold.variableName_eq, fun p => (hold.admits_iff p).trans ?_⟩
      rw [forall_mem_append, forall_mem_singleton]
      exact (and_iff_left fun heq => absurd heq hne).symm

end

end

end Narrow

theorem exists_merge (ds : List Domain) (hds : ∀ d ∈ ds, d.IsNumeric) :
    ∃ t, merge ds = .ok t ∧ Merged ds t := by
  -- The induction goes along the list, behind the domains that are merged already.
  have hloop : ∀ (ds before : List Domain) (t : Table Json Domain), (∀ d ∈ ds, d.IsNumeric) →
      Merged before t →
      ∃ t', ds.foldlM (fun t d => do
        let _ ← d.variableName.asKey
        narrow t d) t = .ok t' ∧ Merged (before ++ ds) t' := by
    intro ds
    induction ds with
    | nil =>
      intro before t _ h
      exact ⟨t, rfl, by rwa [append_nil]⟩
    | cons d ds ih =>
      intro before t hds h
      rw [forall_mem_cons] at hds
      obtain ⟨t1, ht1, h1⟩ := h.exists_narrow hds.1
      obtain ⟨t', ht', h'⟩ := ih (before ++ [d]) t1 hds.2 h1
      refine ⟨t', ?_, by rwa [append_assoc] at h'⟩
      obtain ⟨s, hs⟩ := hds.1.variableName
      rw [foldlM_cons, hs]
      rw [ht1]
      exact ht'
  exact hloop ds [] .empty hds .empty

/-- Intersecting domains of one variable is conjunction.  So is merging a list of domains, for each
variable and whatever the order of the list; the variables are listed as they first appear. -/
theorem intersect_merge_admit_conjunction :
    (∀ a b : Domain, a.IsNumeric → b.IsNumeric → a.variableName = b.variableName →
      ∃ c, a.intersect b = .ok c ∧ ∀ v : Json, v.IsNumber →
        ∃ p q, a.admits v = .ok p ∧ b.admits v = .ok q ∧ c.admits v = .ok (p && q)) ∧
    ∀ cs : List Domain, (∀ d ∈ cs, d.IsNumeric) →
      ∃ t, merge cs = .ok t ∧ t.keys = (cs.map Domain.variableName).eraseDups ∧
        (∀ x, (t.get? x).isSome ↔ ∃ d ∈ cs, d.variableName = x) ∧
        (∀ x c, t.get? x = some c → ∀ v : Json, v.IsNumber →
          ∃ p, c.admits v = .ok p ∧
            (p = true ↔ ∀ d ∈ cs, d.variableName = x → d.admits v = .ok true)) ∧
        ∀ cs', cs'.Perm cs → ∃ t', merge cs' = .ok t' ∧ ∀ x (v : Json), v.IsNumber →
          (t'.get? x).map (·.admits v) = (t.get? x).map (·.admits v) := by
  refine ⟨fun a b ha hb hname => ?_, fun cs hcs => ?_⟩
  · obtain ⟨c, hc, hshows⟩ := exists_intersect ha hb hname
    refine ⟨c, hc, fun v hv => ?_⟩
    obtain ⟨x, hx⟩ := hv.exists_value
    obtain ⟨p, hp, hpIff⟩ := ha.answers_admits hx
    obtain ⟨q, hq, hqIff⟩ := hb.answers_admits hx
    obtain ⟨r, hr, hrIff⟩ := hshows.isNumeric.answers_admits hx
    refine ⟨p, q, hp, hq, ?_⟩
    rw [hr, Except.ok.injEq, Bool.eq_iff_iff, hrIff, hshows.admits_iff, Bool.and_eq_true, hpIff,
      hqIff]
  · obtain ⟨t, ht, hmerged⟩ := exists_merge cs hcs
    refine ⟨t, ht, hmerged.keys_eq, hmerged.isSome_iff, fun x c hc v hv => ?_, fun cs' hperm => ?_⟩
    · have hshows := hmerged.shows x c hc
      obtain ⟨y, hy⟩ := hv.exists_value
      refine (hshows.isNumeric.answers_admits hy).imp ((hshows.admits_iff y).trans ?_)
      refine forall_congr' fun d => forall_congr' fun hd => forall_congr' fun _ => ?_
      exact ((hcs d hd).answers_admits hy).eq_ok_true_iff.symm
    · obtain ⟨t', ht', hmerged'⟩ := exists_merge cs' fun d hd => hcs d (hperm.mem_iff.mp hd)
      refine ⟨t', ht', fun x v hv => ?_⟩
      obtain ⟨y, hy⟩ := hv.exists_value
      have hsome : (t'.get? x).isSome ↔ (t.get? x).isSome := by
        rw [hmerged'.isSome_iff, hmerged.isSome_iff]
        exact exists_congr fun d => and_congr_left fun _ => hperm.mem_iff
      cases hc : t.get? x with
      | none =>
        rw [hc] at hsome
        rw [not_isSome_iff_eq_none.mp fun h => nomatch hsome.mp h]
      | some c =>
        rw [hc] at hsome
        obtain ⟨c', hc'⟩ := isSome_iff_exists.mp (hsome.mpr rfl)
        have hshows := hmerged.shows x c hc
        have hshows' := hmerged'.shows x c' hc'
        obtain ⟨p, hp, hpIff⟩ := hshows.isNumeric.answers_admits hy
        obtain ⟨q, hq, hqIff⟩ := hshows'.isNumeric.answers_admits hy
        have hqp : q = p := by
          rw [Bool.eq_iff_iff, hpIff, hqIff, hshows.admits_iff, hshows'.admits_iff]
          exact forall_congr' fun d => imp_congr_left hperm.mem_iff
        rw [hc', map_some, map_some, hp, hq, hqp]

def sampleList : Domain :=
  ⟨.str "x", .int 3, .int 9, some [.int 2, .int 4, .int 12], .null, .str "x != 5", .str "enum"⟩

def sampleExact : Domain :=
  ⟨.str "x", .null, .int 8, none, .real (.finite false 4503599627370496 (-50)), .null, .str "user"⟩

theorem intersect_merge_admit_conjunction_sample :
    sampleList.IsNumeric ∧ sampleExact.IsNumeric ∧
      (∃ c, sampleList.intersect sampleExact = .ok c ∧ ∀ v : Json, v.IsNumber →
        ∃ p q, sampleList.admits v = .ok p ∧ sampleExact.admits v = .ok q ∧
          c.admits v = .ok (p && q)) ∧
      ∃ t, merge [sampleList, sampleExact] = .ok t ∧ t.keys = [.str "x"] := by
  have hlist : sampleList.IsNumeric :=
    ⟨⟨"x", rfl⟩, .inr rfl, .inr rfl, fun vs hvs => by
      obtain rfl := Option.some.inj hvs
      simp only [forall_mem_cons]
      exact ⟨rfl, rfl, rfl, nofun⟩, .inl rfl, .inr ⟨_, rfl⟩,
    ⟨_, rfl⟩⟩
  have hexact : sampleExact.IsNumeric :=
    ⟨⟨"x", rfl⟩, .inl rfl, .inr rfl, nofun, .inr rfl, .inl rfl, ⟨_, rfl⟩⟩
  have hboth : ∀ d ∈ [sampleList, sampleExact], d.IsNumeric := by
    simp only [forall_mem_cons]
    exact ⟨hlist, hexact, nofun⟩
  obtain ⟨t, ht, hkeys, _⟩ := intersect_merge_admit_conjunction.2 _ hboth
  exact ⟨hlist, hexact, intersect_merge_admit_conjunction.1 _ _ hlist hexact rfl, t, ht, hkeys⟩

end Domain

end Branchwise
