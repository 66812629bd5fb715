import Branchwise.Engine.Solve
import Branchwise.Proofs.Domain.Encoding

/-!
# Sample values

Samples are values of a variable in the models of the condition of a domain, whatever decider finds
them.  The side conditions of the guard are left out there, so a model may rest on a division by
zero.  This is the only way in which a sample that is exact fails.
-/

namespace Branchwise

open List Encoding Condition Guard Json Lowering Table Value

section Models

variable {K : Type} [Field K] [LinearOrder K]

/-- All conditions of a query hold; the reals may be any ordered field. -/
def Query.Holds (q : Query) (I : Interpretation K) : Prop := AllHold I q.formula

/-- A query that a valuation passes when run holds under it. -/
theorem Query.exists_holds {o : Except Error Query} {v : Valuation}
    (h : o.toOption.any (fun q => q.formula.all (·.eval v)) = true) :
    ∃ q, o = .ok q ∧ q.Holds v.interpretation := by
  cases o with
  | error => cases h
  | ok q => exact ⟨q, rfl, fun t ht => (t.denote_interpretation v).trans (all_eq_true.mp h t ht)⟩

/-- The guard of a domain, if there is one, has a value: it divides by no zero. -/
def Domain.IsDefined (d : Domain) (scope : NameScope) (I : Interpretation K) : Prop :=
  ∀ g, Guard.ofJson d.guard = .ok g → ∃ r, g.evaluate scope I.toInputValues = .ok r

end Models

theorem Guard.ofJson_ne_ok_of_isVoid {j : Json} (h : j.isVoid) (g : Expr) :
    ofJson j ≠ .ok g := by
  cases j with
  | str text =>
    obtain rfl : text = "" := by simpa [isVoid] using h
    exact nofun
  | null | bool | int | real | arr | obj => exact nofun

/-! ## Queries for domains -/

namespace Engine

variable {e : Engine} {x type : Json} {d : Domain} {domains : List Domain} {types : VariableTypes}
  {sorts : Table Json TermSort} {scope : NameScope} {c : Condition} {cs : List Condition}
  {q : Query} {K : Type} [Field K] [LinearOrder K]

/-- A domain that has a condition is empty at first sight, has no guard, or has a guard that is
lowered. -/
theorem cases_of_domain (h : domain scope d = .ok c) :
    (∃ u, unknownName d.variableName = .ok u) ∧
      (d.isEmpty = .ok true ∧ c = ⟨.bool false, []⟩ ∨
        d.isEmpty = .ok false ∧
          (d.guard.isVoid ∧ c.sides = [] ∨
            d.guard.isVoid = false ∧ ∃ g l, Guard.ofJson d.guard = .ok g ∧
              Lowering.lower scope g = .ok l ∧ c.sides = l.sides)) := by
  obtain ⟨name, hname, h⟩ := bind_eq_ok h
  obtain ⟨empty, hempty, h⟩ := bind_eq_ok h
  refine ⟨⟨name, hname⟩, ?_⟩
  cases empty with
  | true => exact .inl ⟨hempty, (Except.ok.inj h).symm⟩
  | false =>
    refine .inr ⟨hempty, ?_⟩
    obtain ⟨_, -, h⟩ := bind_eq_ok h
    obtain ⟨_, -, h⟩ := bind_eq_ok h
    obtain ⟨_, -, h⟩ := bind_eq_ok h
    obtain ⟨_, -, h⟩ := bind_eq_ok h
    cases hvoid : d.guard.isVoid with
    | true =>
      rw [hvoid] at h
      cases h
      exact .inl ⟨rfl, rfl⟩
    | false =>
      rw [hvoid] at h
      obtain ⟨g, hg, h⟩ := bind_eq_ok h
      obtain ⟨k, hk, h⟩ := bind_eq_ok h
      obtain ⟨l, hl, hk⟩ := bind_eq_ok hk
      cases h
      cases hk
      exact .inr ⟨rfl, g, l, hg, hl, rfl⟩

/-- Where a domain allows its values, its side conditions say that its guard is defined. -/
theorem allHold_sides_iff (h : domain scope d = .ok c) {I : Interpretation K}
    (hterm : c.term.denote I = true) : AllHold I c.sides ↔ d.IsDefined scope I := by
  obtain ⟨-, ⟨-, rfl⟩ | ⟨-, ⟨hvoid, hsides⟩ | ⟨-, g, l, hg, hl, hsides⟩⟩⟩ := cases_of_domain h
  · cases hterm
  · rw [hsides]
    exact ⟨fun _ g hg => absurd hg (ofJson_ne_ok_of_isVoid hvoid g), fun _ => allHold_nil _⟩
  · have hdefined : d.IsDefined scope I ↔ ∃ r, g.evaluate scope I.toInputValues = .ok r :=
      ⟨fun h => h g hg, fun h g' hg' => Except.ok.inj (hg.symm.trans hg') ▸ h⟩
    have hagrees := lower_agrees scope I g hl
    rw [hdefined, hsides]
    cases hr : g.evaluate scope I.toInputValues with
    | ok r =>
      rw [hr] at hagrees
      exact ⟨fun _ => ⟨r, rfl⟩, fun _ => hagrees.1⟩
    | error =>
      rw [hr] at hagrees
      obtain ⟨-, s, hs, hfalse⟩ := hagrees
      exact ⟨fun hall => absurd (hall s hs) (by simp [hfalse]), nofun⟩

theorem exists_domainVariables (e : Engine) (h : domain scope d = .ok c) :
    ∃ names, e.domainVariables d = .ok names ∧
      ∀ y ∈ names, ∃ u, unknownName y = .ok u := by
  obtain ⟨hname, hcases⟩ := cases_of_domain h
  rcases hcases with ⟨hempty, -⟩ | ⟨hempty, ⟨hvoid, -⟩ | ⟨hvoid, g, -, hg, -⟩⟩
  · exact ⟨[d.variableName], by simp [domainVariables, hempty, pure, Except.pure], by simpa⟩
  · exact ⟨[d.variableName], by simp [domainVariables, hempty, hvoid], by simpa⟩
  · refine ⟨d.variableName :: (e.variablesOf g).map .str, ?_, ?_⟩
    · simp only [domainVariables, hempty, hvoid, hg]
      rfl
    · simpa using ⟨hname, fun y _ => ⟨_, rfl⟩⟩

/-- Where all declared variables have unknowns and all domains have conditions, there is a query for
them. -/
theorem exists_query (hsorts : e.sorts types = .ok sorts)
    (hdeclared : ∀ x ∈ types.keys, ∃ u, unknownName x = .ok u)
    (hcs : domains.mapM (domain (e.scope sorts)) = .ok cs) :
    ∃ q, e.query domains types [] = .ok q ∧
      q.formula = cs.map term ++ cs.flatMap sides := by
  have hvariable (y : Json) (hy : ∃ u, unknownName y = .ok u) :
      ∃ w, queryVariable (e.scope sorts) y = .ok w := by
    obtain ⟨u, hu⟩ := hy
    exact ⟨_, by rw [queryVariable, hu]; rfl⟩
  obtain ⟨declared, hmap⟩ := exists_mapM_eq_ok fun y hy => hvariable y (hdeclared y hy)
  obtain ⟨ofDomains, hofDomains⟩ : ∃ ofDomains, domains.mapM e.domainVariables = .ok ofDomains := by
    refine exists_mapM_eq_ok fun d hd => ?_
    obtain ⟨c, -, hc⟩ := (mapM_eq_ok hcs).1 d hd
    obtain ⟨names, hnames, -⟩ := exists_domainVariables e hc
    exact ⟨names, hnames⟩
  have hnamed : ∀ y ∈ ofDomains.flatten, ∃ u, unknownName y = .ok u := by
    intro y hy
    obtain ⟨names, hnames, hy⟩ := mem_flatten.mp hy
    obtain ⟨d, hd, hdnames⟩ := (mapM_eq_ok hofDomains).2 names hnames
    obtain ⟨c, -, hc⟩ := (mapM_eq_ok hcs).1 d hd
    obtain ⟨names', hnames', hunknown⟩ := exists_domainVariables e hc
    cases hnames'.symm.trans hdnames
    exact hunknown y hy
  obtain ⟨others, hothers⟩ : ∃ others, (ofDomains.flatten.eraseDups.filter
      fun y => !types.contains y).mapM (queryVariable (e.scope sorts)) = .ok others :=
    exists_mapM_eq_ok fun y hy =>
      hvariable y (hnamed y (mem_of_mem_eraseDups (mem_filter.mp hy).1))
  refine ⟨⟨declared ++ others, cs.map term ++ cs.flatMap sides⟩, ?_, rfl⟩
  have hhold : [].mapM (guard (e.scope sorts)) = .ok [] := rfl
  simp only [query, hsorts, ok_bind, hmap, hcs, hhold, hofDomains, flatMap_nil, hothers,
    append_nil]
  rfl

/-- A query holds the condition and the side conditions of each of its domains and guards. -/
theorem exists_conditions_of_query {guards : List Expr} (h : e.query domains types guards = .ok q) :
    ∃ sorts cs hold, e.sorts types = .ok sorts ∧
      (∀ x ∈ types.keys, ∃ u, unknownName x = .ok u) ∧
      domains.mapM (domain (e.scope sorts)) = .ok cs ∧
      guards.mapM (guard (e.scope sorts)) = .ok hold ∧
      q.formula = (cs ++ hold).map term ++ (cs ++ hold).flatMap sides := by
  obtain ⟨sorts, hsorts, h⟩ := bind_eq_ok h
  obtain ⟨declared, hdeclared, h⟩ := bind_eq_ok h
  obtain ⟨cs, hcs, h⟩ := bind_eq_ok h
  obtain ⟨hold, hhold, h⟩ := bind_eq_ok h
  obtain ⟨_, -, h⟩ := bind_eq_ok h
  refine ⟨sorts, cs, hold, hsorts, fun x hx => ?_, hcs, hhold, ?_⟩
  · obtain ⟨w, -, hw⟩ := (mapM_eq_ok hdeclared).1 x hx
    obtain ⟨u, hu, -⟩ := bind_eq_ok hw
    exact ⟨u, hu⟩
  · obtain ⟨_, -, h⟩ := bind_eq_ok h
    cases h
    rfl

/-! ## Samples of a domain -/

/-- A constant is read as a number, in every ordered field. -/
def StandsFor (constant : Json) (r : ℚ) : Prop :=
  ∃ t, Lowering.ofConstant constant = .ok t ∧ ∀ {K : Type} [Field K] [LinearOrder K]
    (I : Interpretation K), (t.denote I).toReal = (r : K)

/-- The query whose models give the samples: only the conditions of the domain. -/
def sampleQuery (e : Engine) (x type : Json) (d : Option Domain) : Except Error Query := do
  let q ← e.query d.toList (.ofList [(x, type)]) []
  return { q with formula := q.formula.take d.toList.length }

/-- The query for the same domain with the variable pinned to a constant. -/
def pinnedQuery (e : Engine) (x type : Json) (d : Option Domain) (pin source : Json) :
    Except Error Query :=
  e.query (d.toList ++ [.exactly x pin source]) (.ofList [(x, type)]) []

/-- Every sample is the literal of the value of the variable in a solution of the conditions and of
some further ones, which exclude the samples before it. -/
theorem exists_solution_of_mem_samples {decide : Decider} {names : List (String × TermSort)}
    {u text : String} {s : TermSort} {count : Nat} {formula : List (Term .bool)}
    {texts : List String} (h : Query.samples decide names u s count formula = .ok texts)
    (htext : text ∈ texts) :
    ∃ others, ∃ a : Solution (formula ++ others), decide names (formula ++ others) = .found a ∧
      Literal.write s (a.model.valuation.number s u) = .ok text := by
  induction count generalizing formula texts with
  | zero =>
    cases h
    cases htext
  | succ count ih =>
    unfold Query.samples at h
    split at h
    · next a ha =>
      obtain ⟨literal, hliteral, h⟩ := bind_eq_ok h
      obtain ⟨rest, hrest, h⟩ := bind_eq_ok h
      cases h
      rcases mem_cons.mp htext with rfl | htext
      · exact ⟨[], (append_nil formula).symm ▸ ⟨a, ha, hliteral⟩⟩
      · obtain ⟨others, hothers⟩ := ih hrest htext
        rw [append_assoc] at hothers
        exact ⟨_, hothers⟩
    · cases h
      cases htext

/-- An exact solution of the conditions of a query and of further ones is a model of the query. -/
theorem holds_of_isExact {others : List (Term .bool)} (a : Solution (q.formula ++ others))
    (hexact : a.isExact) : q.Holds a.model.valuation.interpretation := fun t ht =>
  (t.denote_interpretation _).trans
    (all_eq_true.mp (a.satisfies hexact) t (mem_append_left others ht))

theorem samples_eq (e : Engine) (decide : Decider) (limit : Nat) (x type : Json)
    (d : Option Domain) (count : Json) :
    e.samples decide limit x type d count = match e.sampleQuery x type d with
      | .error (.guard _) => .ok []
      | .error err => .error err
      | .ok q => (do
          let count := countBelow limit (← count.asScalar)
          Query.samples decide q.unknowns (← unknownName x) (← e.sortOf type) count q.formula) := by
  unfold samples sampleQuery
  cases e.query d.toList (.ofList [(x, type)]) [] with
  | ok q => rfl
  | error err => cases err <;> rfl

variable [IsStrictOrderedRing K]

theorem domain_exactly {u : String} (hu : unknownName x = .ok u) {pin : Json} {r : ℚ}
    (hpin : StandsFor pin r) (source : Json) :
    ∃ c, domain scope (.exactly x pin source) = .ok c ∧ c.sides = [] ∧
      ∀ I : Interpretation K, c.term.denote I = true ↔ I.number (scope.sort x) u = r := by
  obtain ⟨t, ht, hvalue⟩ := hpin
  have hgiven : pin.isNull = false := by
    cases pin with
    | null => cases ht
    | bool | int | real | str | arr | obj => rfl
  let compared := ((AnyTerm.var (scope.sort x) u).promote t).compare .eq
  refine ⟨⟨.all [compared], []⟩, ?_, rfl, fun I => ?_⟩
  · have hexact : compareGiven .eq (.var (scope.sort x) u) pin = .ok [compared] := by
      rw [compareGiven, hgiven, compareWith, ht]
      rfl
    simp only [domain, Domain.exactly, Domain.all, hu, ok_bind, hexact]
    rfl
  · rw [denote_all, AllHold, forall_mem_singleton, NumberPair.denote_compare,
      AnyTerm.denote_promote, onNumbers_holds, AnyTerm.denote_var, hvalue I]
    simp [Comparison.holds, Interpretation.number]

theorem beq_self_of_unknownName {u : String} (hu : unknownName x = .ok u) : x == x := by
  cases x with
  | null => rfl
  | str | bool | int =>
    simp [BEq.beq, same, scalar?, Scalar.same, Scalar.eq, Scalar.value?]
  | real | arr | obj => cases hu

theorem exists_sorts {x type : Json} {u : String} (hu : unknownName x = .ok u)
    (hsorts : e.sorts (.ofList [(x, type)]) = .ok sorts) :
    ∃ s, e.sortOf type = .ok s ∧ sorts = .ofList [(x, s)] ∧ (e.scope sorts).sort x = s := by
  obtain ⟨entries, hentries, h⟩ := bind_eq_ok hsorts
  obtain ⟨p, hp, h'⟩ := bind_eq_ok hentries
  obtain ⟨s, hs, hp⟩ := bind_eq_ok hp
  cases hp
  cases h'
  cases h
  refine ⟨s, hs, rfl, ?_⟩
  have hself := beq_self_of_unknownName hu
  show ((ofList [(x, s)]).get? x).getD .int = s
  simp [ofList, Table.get?, Table.put, putList, Table.empty, hself]

/-- The query for a domain in which the variable is pinned to a number is solved by the models of
the condition of the domain in which the variable has this number and the guard divides by no zero.
-/
theorem exists_pinnedQuery {d : Option Domain} (hquery : e.sampleQuery x type d = .ok q) :
    ∃ u s, unknownName x = .ok u ∧ e.sortOf type = .ok s ∧
      ∀ r pin, StandsFor pin r → ∀ source, ∃ p, e.pinnedQuery x type d pin source = .ok p ∧
        ∀ I : Interpretation K, p.Holds I ↔ q.Holds I ∧ I.number s u = r ∧
          ∀ dom ∈ d, dom.IsDefined (e.scope (.ofList [(x, s)])) I := by
  obtain ⟨full, hfull, hq⟩ := bind_eq_ok hquery
  cases hq
  obtain ⟨sorts, cs, hold, hsorts, hdeclared, hcs, hhold, hformula⟩ :=
    exists_conditions_of_query hfull
  obtain rfl : [] = hold := Except.ok.inj hhold
  rw [append_nil] at hformula
  obtain ⟨u, hu⟩ := hdeclared x mem_cons_self
  obtain ⟨s, hs, rfl, hsort⟩ := exists_sorts hu hsorts
  refine ⟨u, s, hu, hs, fun r pin hpin source => ?_⟩
  obtain ⟨c, hc, hsides, hpinned⟩ := domain_exactly (K := K) hu hpin source
  rw [hsort] at hpinned
  have hcs' : (d.toList ++ [Domain.exactly x pin source]).mapM
      (domain (e.scope (.ofList [(x, s)]))) = .ok (cs ++ [c]) := by
    rw [mapM_append, hcs, mapM_cons, hc]
    rfl
  obtain ⟨p, hp, hpformula⟩ := exists_query hsorts hdeclared hcs'
  refine ⟨p, hp, fun I => ?_⟩
  have hholds : p.Holds I ↔ (AllHold I (cs.map term) ∧ I.number s u = r) ∧
      AllHold I (cs.flatMap sides) := by
    simp only [Query.Holds, hpformula, map_append, flatMap_append, allHold_append, ← hpinned I]
    simp [AllHold, hsides]
  rw [hholds, Query.Holds, ← and_assoc, hformula]
  -- What is left out of the conditions are the side conditions of the guard.
  cases d with
  | none =>
    cases hcs
    simp
  | some d =>
    obtain ⟨k, hk, hcs⟩ := bind_eq_ok hcs
    obtain rfl : [k] = cs := Except.ok.inj hcs
    have htaken : AllHold I ([k].map term) ↔ k.term.denote I = true := by simp [AllHold]
    have hdefined (hterm : k.term.denote I = true) :
        AllHold I ([k].flatMap sides) ↔ d.IsDefined (e.scope (.ofList [(x, s)])) I := by
      rw [flatMap_singleton, allHold_sides_iff hk hterm]
    rw [htaken]
    show _ ↔ (AllHold I [k.term] ∧ _) ∧ _
    rw [show [k.term] = [k].map term from rfl, htaken]
    refine and_congr_right fun h => (hdefined h.1).trans ?_
    simp

/-- **Samples and pinned queries.**  Every sample, whatever decider is asked, is the literal of the
value of the variable in a solution, and an exact solution is a model of the condition of the
domain.  The query for the domain in which the variable is pinned to a number can be solved exactly
if that number is the value of the variable in such a model in which the guard divides by no
zero. -/
theorem pinned_solvable_iff {K : Type} [Field K] [LinearOrder K] [IsStrictOrderedRing K]
    {e : Engine} {x type : Json} {d : Option Domain} {q : Query}
    (hquery : e.sampleQuery x type d = .ok q) :
    ∃ u s, Encoding.unknownName x = .ok u ∧ e.sortOf type = .ok s ∧
      (∀ decide limit count texts, e.samples decide limit x type d count = .ok texts →
        ∀ text ∈ texts, ∃ others, ∃ a : Solution (q.formula ++ others),
          decide q.unknowns (q.formula ++ others) = .found a ∧
          Literal.write s (a.model.valuation.number s u) = .ok text ∧
          (a.isExact → q.Holds a.model.valuation.interpretation)) ∧
      ∀ r pin, StandsFor pin r → ∀ source, ∃ p, e.pinnedQuery x type d pin source = .ok p ∧
        ((∃ I : Interpretation K, p.Holds I) ↔
          ∃ I : Interpretation K, q.Holds I ∧ I.number s u = r ∧
            ∀ dom ∈ d, dom.IsDefined (e.scope (.ofList [(x, s)])) I) := by
  obtain ⟨u, s, hu, hs, hpinned⟩ := exists_pinnedQuery (K := K) hquery
  refine ⟨u, s, hu, hs, fun decide limit count texts htexts text htext => ?_,
    fun r pin hpin source => ?_⟩
  · rw [samples_eq, hquery] at htexts
    obtain ⟨n, -, htexts⟩ := bind_eq_ok htexts
    rw [hu, hs] at htexts
    obtain ⟨others, a, ha, hwrite⟩ := exists_solution_of_mem_samples htexts htext
    exact ⟨others, a, ha, hwrite, holds_of_isExact a⟩
  · obtain ⟨p, hp, hholds⟩ := hpinned r pin hpin source
    exact ⟨p, hp, exists_congr hholds⟩

def divisor : Domain :=
  ⟨.str "x", .int (-1), .int 1, none, .null, .str "10 / x > 3", .str "user"⟩

def divisorModel (n byZero : ℤ) : Model := ⟨[("x", .int)], [n], [(10, byZero)], []⟩

theorem isDefined_divisor_iff (I : Interpretation ℚ) :
    divisor.IsDefined ((⟨none, .empty⟩ : Engine).scope (.ofList [(.str "x", .int)])) I ↔
      I.int "x" ≠ 0 := by
  let g := Expr.binary .gt (.binary .div (.int 10) (.name "x")) (.int 3)
  have hparse : Guard.parse "10 / x > 3" = .ok g := by decide +kernel
  have hg : Guard.ofJson divisor.guard = .ok g := by
    rw [show divisor.guard = .str "10 / x > 3" from rfl, Guard.ofJson, hparse]
    rfl
  have hquotient : (g.evaluate ((⟨none, .empty⟩ : Engine).scope (.ofList [(.str "x", .int)]))
      I.toInputValues)
      = (div (.int 10) (.int (I.int "x"))).bind (operate .gt · (.int 3)) := rfl
  have hdiv : div (.int 10) (.int (I.int "x") : Value ℚ)
      = if I.int "x" = 0 then .error .divisionByZero
        else .ok (.int (Int.tdiv 10 (I.int "x"))) := rfl
  constructor
  · intro h hzero
    obtain ⟨r, hr⟩ := h g hg
    rw [hquotient, hdiv, if_pos hzero] at hr
    cases hr
  · intro hzero g' hg'
    cases hg.symm.trans hg'
    rw [hquotient, hdiv, if_neg hzero]
    exact ⟨_, rfl⟩

theorem standsFor_int {n : ℤ} (hn : Number.isWritable n) : StandsFor (.int n) n := by
  obtain ⟨hbuilt, hvalue⟩ := ofConstant_integer (j := .int n) rfl
  obtain ⟨t, ht⟩ := hbuilt.mpr fun m hm => Json.int.inj hm ▸ hn
  exact ⟨t, ht, fun I => by rw [hvalue t ht I, Rat.cast_intCast]⟩

theorem pinned_solvable_iff_divisor :
    ∃ q, (⟨none, .empty⟩ : Engine).sampleQuery (.str "x") (.str "int") divisor = .ok q ∧
      StandsFor (.int 1) (1 : ℤ) ∧
      ∃ p, (⟨none, .empty⟩ : Engine).pinnedQuery (.str "x") (.str "int") divisor (.int 1)
        (.str "user") = .ok p ∧ ∃ I : Interpretation ℚ, p.Holds I := by
  obtain ⟨q, hquery, hholds⟩ := Query.exists_holds (v := (divisorModel 1 0).valuation) (o :=
    (⟨none, .empty⟩ : Engine).sampleQuery (.str "x") (.str "int") divisor) (by decide +kernel)
  have hone : StandsFor (.int 1) (1 : ℤ) := standsFor_int (by decide +kernel)
  obtain ⟨u, s, hu, hs, -, hpinned⟩ := pinned_solvable_iff (K := ℚ) hquery
  obtain rfl : "x" = u := Except.ok.inj hu
  obtain rfl : TermSort.int = s := Except.ok.inj hs
  obtain ⟨p, hp, hiff⟩ := hpinned _ _ hone (.str "user")
  refine ⟨q, hquery, hone, p, hp, hiff.mpr ⟨_, hholds, rfl, fun dom hdom => ?_⟩⟩
  obtain rfl := Option.some.inj hdom
  exact (isDefined_divisor_iff _).mpr (by decide +kernel)

/-- A sample may rest on a division by zero, and the variable cannot have its value then.  The model
is one that a decider may find first. -/
theorem not_pinned_solvable : let m := divisorModel 0 4
    ∃ q p, (⟨none, .empty⟩ : Engine).sampleQuery (.str "x") (.str "int") divisor = .ok q ∧
      m.satisfies q.formula ∧ m.valuation.number .int "x" = 0 ∧
      (⟨none, .empty⟩ : Engine).samples (fun _ formula => .found (.ofModel formula m)) 0 (.str "x")
        (.str "int") divisor (.int 1) = .ok ["0"] ∧
      StandsFor (.int 0) (0 : ℤ) ∧
      (⟨none, .empty⟩ : Engine).pinnedQuery (.str "x") (.str "int") divisor (.int 0)
        (.str "user") = .ok p ∧ ¬∃ I : Interpretation ℚ, p.Holds I := by
  intro m
  obtain ⟨q, hquery, hholds⟩ := Query.exists_holds (v := m.valuation) (o :=
    (⟨none, .empty⟩ : Engine).sampleQuery (.str "x") (.str "int") divisor) (by decide +kernel)
  have hzero : StandsFor (.int 0) (0 : ℤ) := standsFor_int (by decide +kernel)
  obtain ⟨u, s, hu, hs, hpinned⟩ := exists_pinnedQuery (K := ℚ) hquery
  obtain rfl : "x" = u := Except.ok.inj hu
  obtain rfl : TermSort.int = s := Except.ok.inj hs
  obtain ⟨p, hp, hiff⟩ := hpinned _ _ hzero (.str "user")
  have hmodel : m.satisfies q.formula :=
    all_eq_true.mpr fun t ht => (t.denote_interpretation _).symm.trans (hholds t ht)
  refine ⟨q, p, hquery, hmodel, rfl, eq_ok_of_toOption (by decide +kernel), hzero, hp,
    fun ⟨I, hI⟩ => ?_⟩
  obtain ⟨-, hnumber, hdefined⟩ := (hiff I).mp hI
  exact (isDefined_divisor_iff I).mp (hdefined divisor rfl) (Int.cast_injective hnumber)

end Engine

end Branchwise
