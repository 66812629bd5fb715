import Branchwise.Engine.Solve
import Branchwise.Proofs.Domain.Intersection
import Branchwise.Proofs.Engine.Literals
import Branchwise.Proofs.Guard.Lowering
import Mathlib.Data.List.TakeWhile

/-!
# Solving and evaluating agree

A solution of a query gives every variable a literal.  Evaluating a guard with these literals reads
every name as the query does, as long as no name is both a named constant and a variable of the
query.  So every guard of a query evaluates to something true in every solution.
-/

namespace Branchwise

open List Literal Lowering

/-! ## Names of guards -/

theorem Expr.mem_freeNames {e : Expr} {x : String} : x ∈ e.freeNames ↔ .name x ∈ e.walk := by
  rw [freeNames, mem_eraseDups, mem_filterMap]
  constructor
  · rintro ⟨e', he', h⟩
    cases e' with
    | name y =>
      cases h
      exact he'
    | int | real | bool | unary | binary => cases h
  · exact fun h => ⟨_, h, rfl⟩

namespace Guard

theorem code_ne_zero_of_isNameChar {c : Char} (h : Text.isNameChar c) : c.toNat ≠ 0 := by
  intro hzero
  simp [Text.isNameChar, Text.isNameStart, hzero] at h

theorem IsIdentifier.code_ne_zero {x : List Char} (h : IsIdentifier x) : ∀ c ∈ x, c.toNat ≠ 0 :=
  fun c hc => code_ne_zero_of_isNameChar (h.isNameChar c hc)

theorem Steps.code_ne_zero {s t : List Char} (h : Steps s t) : ∀ c ∈ t, c.toNat ≠ 0 := by
  induction h with
  | nil => exact nofun
  | member ha _ _ hx _ ih =>
    simp only [forall_mem_append]
    refine ⟨?_, hx.code_ne_zero, ih⟩
    rcases ha with rfl | rfl <;> simp
  | index _ _ _ _ hi _ ih =>
    simp only [forall_mem_cons, forall_mem_append]
    exact ⟨by decide, fun c hc => code_ne_zero_of_isNameChar (hi c hc), by decide, ih⟩

theorem Path.code_ne_zero {s x : List Char} (h : Path s x) : ∀ c ∈ x, c.toNat ≠ 0 := by
  obtain ⟨hx, -, -, hs⟩ := h
  rw [forall_mem_append]
  exact ⟨hx.code_ne_zero, hs.code_ne_zero⟩

theorem Written.code_ne_zero {k : Nat} {s : List Char} {e : Expr} (h : Written .full k s e)
    {x : String} (hx : .name x ∈ e.walk) : ∀ c ∈ x.toList, c.toNat ≠ 0 := by
  induction h with
  | literal h =>
    cases h with
    | decimal | octal | hexadecimal | real | char | escape | bool =>
      exact absurd (mem_singleton.mp hx) nofun
  | name h =>
    obtain rfl := Expr.name.inj (mem_singleton.mp hx)
    rw [String.toList_ofList]
    exact h.code_ne_zero
  | paren _ _ _ ih | plus _ _ _ ih | looser _ ih => exact ih hx
  | not _ _ ih | neg _ _ _ ih => exact ih ((mem_cons.mp hx).resolve_left nofun)
  | @fold _ _ e _ _ _ _ hnumber _ =>
    cases e with
    | int | real =>
      cases hnumber
      exact absurd (mem_singleton.mp hx) nofun
    | name | bool | unary | binary => cases hnumber
  | binary _ _ _ _ ihl ihr =>
    rcases mem_append.mp ((mem_cons.mp hx).resolve_left nofun) with hx | hx
    · exact ihl hx
    · exact ihr hx

theorem unknownName_of_mem_freeNames {text : String} {e : Expr} (h : parse text = .ok e)
    {x : String} (hx : x ∈ e.freeNames) : Encoding.unknownName (.str x) = .ok x := by
  obtain ⟨_, _, _, _, _, _, hwritten⟩ := parse_eq_ok_iff.mp h
  have hcode := hwritten.code_ne_zero (Expr.mem_freeNames.mp hx)
  have hkept : x.toList.takeWhile (fun c => c.toNat ≠ 0) = x.toList :=
    takeWhile_eq_self_iff.mpr fun c hc => decide_eq_true (hcode c hc)
  rw [Encoding.unknownName, hkept, String.ofList_toList]

theorem exists_parse_of_ofJson {j : Json} {e : Expr} (h : ofJson j = .ok e) :
    ∃ text, parse text = .ok e := by
  cases j with
  | str text =>
    refine ⟨text, ?_⟩
    cases hparse : parse text with
    | error err =>
      rw [ofJson, hparse] at h
      cases h
    | ok e' =>
      simpa only [ofJson, hparse, Except.mapError, Except.ok.injEq] using h
  | null => cases h
  | bool | int | real | arr | obj => cases h

end Guard

/-! ## One guard in two scopes -/

section Scopes

variable {s1 s2 : NameScope}

theorem Expr.evaluate_congr {a1 a2 : InputValues ℚ} {e : Expr}
    (h : ∀ x ∈ e.freeNames, (name x).evaluate s1 a1 = (name x).evaluate s2 a2) :
    e.evaluate s1 a1 = e.evaluate s2 a2 := by
  simp only [mem_freeNames] at h
  induction e with
  | name x => exact h x (mem_singleton.mpr rfl)
  | int | real | bool => rfl
  | unary op e ih =>
    have ih' := ih fun x hx => h x (mem_cons_of_mem _ hx)
    cases op <;> simp only [evaluate, ih']
  | binary op l r ihl ihr =>
    have ihl' := ihl fun x hx => h x (mem_cons_of_mem _ (mem_append_left _ hx))
    have ihr' := ihr fun x hx => h x (mem_cons_of_mem _ (mem_append_right _ hx))
    simp only [evaluate, ihl', ihr']

namespace Lowering

theorem sort_ne_real_of_rem {whole : Expr} {l r : AnyTerm} {t : Lowered}
    (h : binary whole .rem l r = .ok t) : l.sort ≠ .real ∧ r.sort ≠ .real := by
  cases l with
  | real => cases h
  | int | bool =>
    cases r with
    | real => cases h
    | int | bool => exact ⟨nofun, nofun⟩

theorem sort_negative (t : AnyTerm) : (negative t).sort = Expr.commonSort t.sort .int := by
  cases t <;> rfl

theorem exists_lower_congr {e : Expr}
    (h : ∀ x ∈ e.freeNames, ∀ l1, lower s1 (.name x) = .ok l1 →
      ∃ l2, lower s2 (.name x) = .ok l2 ∧ l2.term.sort = l1.term.sort)
    {l1 : Lowered} (hl1 : lower s1 e = .ok l1) :
    ∃ l2, lower s2 e = .ok l2 ∧ l2.term.sort = l1.term.sort := by
  simp only [Expr.mem_freeNames] at h
  induction e generalizing l1 with
  | name x => exact h x (mem_singleton.mpr rfl) l1 hl1
  | int | real | bool => exact ⟨l1, hl1, rfl⟩
  | unary op e ih =>
    have hnames := fun x hx => h x (mem_cons_of_mem _ hx)
    cases op with
    | not =>
      obtain ⟨l, hl, hl1⟩ := bind_eq_ok hl1
      cases hl1
      obtain ⟨l', hl', -⟩ := ih hl hnames
      exact ⟨⟨.bool (.not l'.term.asBool), l'.sides⟩, by rw [lower, hl']; rfl, rfl⟩
    | neg =>
      obtain ⟨l, hl, hl1⟩ := bind_eq_ok hl1
      cases hl1
      obtain ⟨l', hl', hsort⟩ := ih hl hnames
      refine ⟨_, by rw [lower, hl']; rfl, ?_⟩
      rw [sort_negative, sort_negative, hsort]
  | binary op a b iha ihb =>
    have hleft := fun x hx => h x (mem_cons_of_mem _ (mem_append_left _ hx))
    have hright := fun x hx => h x (mem_cons_of_mem _ (mem_append_right _ hx))
    obtain ⟨l, hl, hl1⟩ := bind_eq_ok hl1
    obtain ⟨r, hr, hl1⟩ := bind_eq_ok hl1
    obtain ⟨t, ht, hl1⟩ := bind_eq_ok hl1
    cases hl1
    obtain ⟨l', hl', hlsort⟩ := iha hl hleft
    obtain ⟨r', hr', hrsort⟩ := ihb hr hright
    have hrem : op = .rem → l.term.sort ≠ .real ∧ r.term.sort ≠ .real := by
      rintro rfl
      exact sort_ne_real_of_rem ht
    obtain ⟨t1, ht1, hsort1⟩ := exists_binary (.binary op a b) op l.term r.term hrem
    cases ht.symm.trans ht1
    obtain ⟨t', ht', hsort'⟩ := exists_binary (.binary op a b) op l'.term r'.term
      (by rw [hlsort, hrsort]; exact hrem)
    refine ⟨_, by rw [lower, hl', ok_bind, hr', ok_bind, ht']; rfl, ?_⟩
    rw [hsort', hlsort, hrsort, ← hsort1]

end Lowering

end Scopes

/-! ## Queries -/

namespace Engine

variable {e : Engine} {domains : List Domain} {types : VariableTypes} {guards : List Expr}
  {q : Query} {sorts : Table Json TermSort}

/-- What a query holds for its guards: variables with the unknowns and sorts of their names, one for
every name that is no constant, and the condition and side conditions of every guard. -/
structure Asks (e : Engine) (sorts : Table Json TermSort) (guards : List Expr) (q : Query) :
    Prop where
  variable_eq : ∀ w ∈ q.vars, queryVariable (e.scope sorts) w.variableName = .ok w
  exists_variable : ∀ g ∈ guards, ∀ x ∈ e.variablesOf g, ∃ w ∈ q.vars, w.variableName = .str x
  exists_lowered : ∀ g ∈ guards, ∃ l, lower (e.scope sorts) g = .ok l ∧
    l.term.asBool ∈ q.formula ∧ ∀ side ∈ l.sides, side ∈ q.formula

theorem variableName_of_queryVariable {scope : NameScope} {x : Json} {w : QueryVariable}
    (h : queryVariable scope x = .ok w) :
    w.variableName = x ∧ w.sort = scope.sort x ∧ Encoding.unknownName x = .ok w.unknown := by
  obtain ⟨unknown, hunknown, h⟩ := bind_eq_ok h
  cases h
  exact ⟨rfl, rfl, hunknown⟩

theorem exists_asks (h : e.query domains types guards = .ok q) :
    ∃ sorts, e.sorts types = .ok sorts ∧ e.Asks sorts guards q := by
  obtain ⟨sorts, hsorts, h⟩ := bind_eq_ok h
  obtain ⟨declared, hdeclared, h⟩ := bind_eq_ok h
  obtain ⟨inDomains, -, h⟩ := bind_eq_ok h
  obtain ⟨hold, hhold, h⟩ := bind_eq_ok h
  obtain ⟨ofDomains, -, h⟩ := bind_eq_ok h
  obtain ⟨others, hothers, h⟩ := bind_eq_ok h
  cases h
  refine ⟨sorts, hsorts, fun w hw => ?_, fun g hg x hx => ?_, fun g hg => ?_⟩
  · have hvariable : ∃ x, queryVariable (e.scope sorts) x = .ok w := by
      rcases mem_append.mp hw with hw | hw
      · obtain ⟨x, -, hx⟩ := (mapM_eq_ok hdeclared).2 w hw
        exact ⟨x, hx⟩
      · obtain ⟨x, -, hx⟩ := (mapM_eq_ok hothers).2 w hw
        exact ⟨x, hx⟩
    obtain ⟨x, hx⟩ := hvariable
    rwa [(variableName_of_queryVariable hx).1]
  · by_cases hdecl : types.contains (.str x)
    · have hkey := (Table.contains_iff_of_isolated (Json.isolated_str x) types).mp hdecl
      obtain ⟨w, hw, hquery⟩ := (mapM_eq_ok hdeclared).1 _ hkey
      exact ⟨w, mem_append_left _ hw, (variableName_of_queryVariable hquery).1⟩
    · have hname : Json.str x ∈ ofDomains.flatten
          ++ guards.flatMap fun g => (e.variablesOf g).map Json.str :=
        mem_append_right _ (mem_flatMap.mpr ⟨g, hg, mem_map_of_mem hx⟩)
      have hlisted := Table.mem_eraseDups_of_isolated (Json.isolated_str x) hname
      obtain ⟨w, hw, hquery⟩ := (mapM_eq_ok hothers).1 (.str x)
        (mem_filter.mpr ⟨hlisted, by simpa using hdecl⟩)
      exact ⟨w, mem_append_right _ hw, (variableName_of_queryVariable hquery).1⟩
  · obtain ⟨c, hc, hguard⟩ := (mapM_eq_ok hhold).1 g hg
    obtain ⟨l, hl, hguard⟩ := bind_eq_ok hguard
    cases hguard
    have hcondition := mem_append_right inDomains hc
    exact ⟨l, hl, mem_append_left _ (mem_map_of_mem (f := Condition.term) hcondition),
      fun side hside => mem_append_right _ (mem_flatMap.mpr ⟨_, hcondition, hside⟩)⟩

theorem sort_scope_ne_real (htypes : ∀ type ∈ types.values, e.sortOf type ≠ .ok .real)
    (hsorts : e.sorts types = .ok sorts) (x : Json) : (e.scope sorts).sort x ≠ .real := by
  obtain ⟨entries, hentries, h⟩ := bind_eq_ok hsorts
  cases h
  show ((Table.ofList entries).get? x).getD .int ≠ .real
  cases hget : (Table.ofList entries).get? x with
  | none => exact nofun
  | some s =>
    obtain ⟨p, hp, rfl⟩ := mem_map.mp (Table.mem_values_ofList (Table.mem_values_of_get? hget))
    obtain ⟨⟨y, type⟩, hmem, hsort⟩ := (mapM_eq_ok hentries).2 p hp
    obtain ⟨s, hs, hsort⟩ := bind_eq_ok hsort
    cases hsort
    intro hreal
    exact htypes type (mem_map_of_mem (f := Prod.snd) hmem) (hreal ▸ hs)

end Engine

/-! ## Literals of a solution -/

def Model.IsIntegral (m : Model) : Prop := ∀ x, (m.get .int x).den = 1

/-- The constant that stands for the value of a variable that is no real. -/
def Model.constant (m : Model) (s : TermSort) (x : String) : Scalar :=
  match s with
  | .bool => .bool (m.get .bool x != 0)
  | s => .int (m.get s x).num

theorem Literal.parse_of_write {m : Model} {s : TermSort} {x text : String} (hs : s ≠ .real)
    (h : write s (m.get s x) = .ok text) :
    parse text = .ok (m.constant s x) ∧
      (s = .int → Number.isWritable (m.get .int x).num) := by
  cases s with
  | int =>
    obtain ⟨hparse, hwritable⟩ := parse_of_digits h
    exact ⟨hparse, fun _ => hwritable⟩
  | bool => exact ⟨parse_of_write_bool h, nofun⟩
  | real => exact absurd rfl hs

def assignedValues (a : List (Json × String)) : Table Json Json :=
  .ofList (a.map fun p => (p.1, .str p.2))

namespace Engine

theorem bind_of_parse (e : Engine) {x : Json} {text : String} {c : Scalar}
    (h : parse text = .ok c) : e.bind none x (.str text) = .ok (.ofScalar c) := by
  simp only [bind, h]
  cases c <;> rfl

theorem exists_foldlM_bind (e : Engine) {entries : List (Json × Json)} (t : Table String Json)
    (hkeys : (entries.map Prod.fst).Pairwise fun k k' => ¬(k == k'))
    (hentries : ∀ p ∈ entries, ∃ v, e.bind none p.1 p.2 = .ok v) :
    ∃ bound, entries.foldlM (fun (t : Table String Json) (p : Json × Json) => do
        let v ← e.bind none p.1 p.2
        match p.1 with
        | .str name => return t.put name v
        | _ => return t) t = Except.ok bound ∧
      (∀ x raw v, (.str x, raw) ∈ entries → e.bind none (.str x) raw = .ok v →
        bound.get? x = some v) ∧
      ∀ x, .str x ∉ entries.map Prod.fst → bound.get? x = t.get? x := by
  induction entries generalizing t with
  | nil => exact ⟨t, rfl, nofun, fun _ _ => rfl⟩
  | cons p entries ih =>
    rw [map_cons, pairwise_cons] at hkeys
    rw [forall_mem_cons] at hentries
    obtain ⟨key, raw⟩ := p
    obtain ⟨v, hv⟩ := hentries.1
    have hself (x : String) : .str x ∈ entries.map Prod.fst → key ≠ .str x := by
      rintro hx rfl
      exact hkeys.1 _ hx ((Json.isolated_str x _).1.mpr rfl)
    -- The rest is bound in the table that this entry leaves.
    obtain ⟨t1, ht1, hput, hother⟩ : ∃ t1 : Table String Json,
        (do
          let v ← e.bind none key raw
          match key with
          | .str name => return t.put name v
          | _ => return t) = Except.ok t1 ∧
        (∀ x, key = .str x → t1.get? x = some v) ∧
        ∀ x, key ≠ .str x → t1.get? x = t.get? x := by
      rw [hv]
      cases key with
      | str name =>
        refine ⟨_, rfl, fun x hx => ?_, fun x hx => ?_⟩
        · cases hx
          exact Table.get?_put_self t name _
        · exact Table.get?_put_of_ne t _ fun h => hx (h ▸ rfl)
      | null | bool | int | real | arr | obj => exact ⟨t, rfl, nofun, fun _ _ => rfl⟩
    obtain ⟨bound, hbound, hread, hkept⟩ := ih t1 hkeys.2 hentries.2
    refine ⟨bound, by rw [foldlM_cons, ht1]; exact hbound, ?_, ?_⟩
    · intro x raw' v' hmem hv'
      rcases mem_cons.mp hmem with heq | hmem
      · obtain ⟨rfl, rfl⟩ := Prod.mk.inj heq
        cases hv.symm.trans hv'
        rw [hkept x fun hx => hself x hx rfl]
        exact hput x rfl
      · exact hread x raw' v' hmem hv'
    · intro x hx
      rw [map_cons, mem_cons, not_or] at hx
      rw [hkept x hx.2]
      exact hother x fun h => hx.1 h.symm

theorem exists_bindAll (e : Engine) {values : Table Json Json}
    (hkeys : values.keys.Pairwise fun k k' => ¬(k == k'))
    (hvalues : ∀ p ∈ values.entries, ∃ v, e.bind none p.1 p.2 = .ok v) :
    ∃ bound, e.bindAll none values = .ok bound ∧
      (∀ x raw v, values.get? (.str x) = some raw → e.bind none (.str x) raw = .ok v →
        bound.get? x = some v) ∧
      ∀ x, values.get? (.str x) = none → bound.get? x = e.symbols.get? x := by
  obtain ⟨bound, hbound, hread, hkept⟩ := e.exists_foldlM_bind e.symbols hkeys hvalues
  refine ⟨bound, hbound, fun x raw v hget => ?_, fun x hget => hkept x fun hx => ?_⟩
  · obtain ⟨k, hk, hmem⟩ := Table.exists_mem_of_get? hget
    exact hread x raw v ((Json.isolated_str x k).1.mp hk ▸ hmem)
  · have hcontains := (Table.contains_iff_of_isolated (Json.isolated_str x) values).mpr hx
    rw [Table.contains_eq_isSome_get?, hget] at hcontains
    cases hcontains

section Solutions

variable {e : Engine} {domains : List Domain} {types : VariableTypes} {guards : List Expr}
  {q : Query} {sorts : Table Json TermSort} {m : Model} {a : List (Json × String)}
  {bound : Table String Json} {g : Expr}

/-- What evaluation binds the names to in a solution: a variable of the query to the constant of its
value, and any other name to its own constant. -/
structure Binds (e : Engine) (q : Query) (m : Model) (values : Table Json Json)
    (bound : Table String Json) : Prop where
  contains : ∀ w ∈ q.vars, ∀ x, w.variableName = .str x → values.contains (.str x)
  get?_variable : ∀ w ∈ q.vars, ∀ x, w.variableName = .str x →
    bound.get? x = some (.ofScalar (m.constant w.sort w.unknown))
  isWritable : ∀ w ∈ q.vars, w.sort = .int →
    Number.isWritable (m.get .int w.unknown).num
  get?_other : ∀ x, (∀ w ∈ q.vars, w.variableName ≠ .str x) → bound.get? x = e.symbols.get? x

theorem Asks.exists_binds (h : e.Asks sorts guards q) (hsort : ∀ x, (e.scope sorts).sort x ≠ .real)
    (hliterals : q.literals m = .ok a) :
    ∃ bound, e.bindAll none (assignedValues a) = .ok bound ∧
      e.Binds q m (assignedValues a) bound := by
  obtain ⟨hof, hto⟩ := mapM_eq_ok hliterals
  have hliteral : ∀ w ∈ q.vars, ∃ text, (w.variableName, text) ∈ a ∧
      write w.sort (m.get w.sort w.unknown) = .ok text := by
    intro w hw
    obtain ⟨p, hp, hwrite⟩ := hof w hw
    obtain ⟨text, htext, hwrite⟩ := bind_eq_ok hwrite
    cases hwrite
    exact ⟨text, hp, htext⟩
  have hwritten : ∀ p ∈ a, ∃ w ∈ q.vars, p.1 = w.variableName ∧
      write w.sort (m.get w.sort w.unknown) = .ok p.2 := by
    intro p hp
    obtain ⟨w, hw, hwrite⟩ := hto p hp
    obtain ⟨text, htext, hwrite⟩ := bind_eq_ok hwrite
    cases hwrite
    exact ⟨w, hw, rfl, htext⟩
  have hnotReal : ∀ w ∈ q.vars, w.sort ≠ .real := by
    intro w hw
    rw [(variableName_of_queryVariable (h.variable_eq w hw)).2.1]
    exact hsort _
  have hvalues : ∀ p ∈ (assignedValues a).entries, ∃ v, e.bind none p.1 p.2 = .ok v := by
    intro p hp
    have hmem := Table.mem_values_ofList (mem_map_of_mem (f := Prod.snd) hp)
    rw [map_map] at hmem
    obtain ⟨p', hp', hraw⟩ := mem_map.mp hmem
    obtain ⟨w, hw, -, hwrite⟩ := hwritten p' hp'
    rw [← hraw]
    exact ⟨_, bind_of_parse e (parse_of_write (hnotReal w hw) hwrite).1⟩
  obtain ⟨bound, hbound, hread, hkept⟩ :=
    e.exists_bindAll (Table.pairwise_keys_ofList _) hvalues
  obtain hget := fun x => Table.get?_ofList_of_isolated (Json.isolated_str x)
    (a.map fun p => (p.1, Json.str p.2))
  -- The literal that is read for a name is that of its variable: one name has one variable.
  have hvariable : ∀ w ∈ q.vars, ∀ x, w.variableName = .str x → ∃ text,
      (assignedValues a).get? (.str x) = some (.str text) ∧
        write w.sort (m.get w.sort w.unknown) = .ok text := by
    intro w hw x hx
    obtain ⟨text, hmem, -⟩ := hliteral w hw
    have hkey : .str x ∈ (a.map fun p => (p.1, Json.str p.2)).map Prod.fst := by
      rw [map_map, ← hx]
      exact mem_map.mpr ⟨_, hmem, rfl⟩
    obtain ⟨raw, hraw⟩ := Option.isSome_iff_exists.mp ((hget x).2 hkey)
    obtain ⟨p, hp, heq⟩ := mem_map.mp ((hget x).1 raw hraw)
    obtain ⟨hpx, rfl⟩ := Prod.mk.inj heq
    obtain ⟨w', hw', hname, hwrite⟩ := hwritten p hp
    have hw'' := h.variable_eq w' hw'
    rw [← hname, hpx, ← hx, h.variable_eq w hw] at hw''
    exact ⟨p.2, hraw, Except.ok.inj hw'' ▸ hwrite⟩
  refine ⟨bound, hbound, fun w hw x hx => ?_, fun w hw x hx => ?_, fun w hw hint => ?_,
    fun x hx => hkept x ?_⟩
  · obtain ⟨text, hraw, -⟩ := hvariable w hw x hx
    rw [Table.contains_eq_isSome_get?, hraw]
    rfl
  · obtain ⟨text, hraw, hwrite⟩ := hvariable w hw x hx
    exact hread x _ _ hraw (bind_of_parse e (parse_of_write (hnotReal w hw) hwrite).1)
  · obtain ⟨text, -, hwrite⟩ := hliteral w hw
    exact (parse_of_write (hnotReal w hw) hwrite).2 hint
  · refine Option.eq_none_iff_forall_ne_some.mpr fun raw hraw => ?_
    obtain ⟨p, hp, heq⟩ := mem_map.mp ((hget x).1 raw hraw)
    obtain ⟨w, hw, hname, -⟩ := hwritten p hp
    exact hx w hw (hname ▸ (Prod.mk.inj heq).1)

theorem Binds.evaluate_name (hbinds : e.Binds q m (assignedValues a) bound)
    (hasks : e.Asks sorts guards q) (hsort : ∀ x, (e.scope sorts).sort x ≠ .real)
    (hint : m.IsIntegral) {text : String} (hparse : Guard.parse text = .ok g) (hg : g ∈ guards)
    {x : String} (hx : x ∈ g.freeNames)
    (hclear : e.symbols.contains x → ∀ w ∈ q.vars, w.variableName ≠ .str x) :
    (Expr.name x).evaluate (e.scope sorts) m.valuation.interpretation.toInputValues
        = (Expr.name x).evaluate ⟨fun _ => .int, bound⟩
          Valuation.zero.interpretation.toInputValues ∧
      ∀ l1, lower (e.scope sorts) (.name x) = .ok l1 →
        ∃ l2, lower ⟨fun _ => .int, bound⟩ (.name x) = .ok l2 ∧
          l2.term.sort = l1.term.sort := by
  cases hsymbol : e.symbols.get? x with
  | some c =>
    have hcontains : e.symbols.contains x := by
      rw [Table.contains_eq_isSome_get?, hsymbol]
      rfl
    have hbound := (hbinds.get?_other x (hclear hcontains)).trans hsymbol
    have hscope : (e.scope sorts).symbols.get? x = some c := hsymbol
    simp only [Expr.evaluate, lower, hscope, hbound, true_and]
    exact fun l1 hl1 => ⟨l1, hl1, rfl⟩
  | none =>
    have hvariable : x ∈ e.variablesOf g := by
      refine mem_filter.mpr ⟨hx, ?_⟩
      rw [Table.contains_eq_isSome_get?, hsymbol]
      rfl
    obtain ⟨w, hw, hname⟩ := hasks.exists_variable g hg x hvariable
    have hquery := hasks.variable_eq w hw
    rw [hname] at hquery
    obtain ⟨-, hws, hunknown⟩ := variableName_of_queryVariable hquery
    cases (Guard.unknownName_of_mem_freeNames hparse hx).symm.trans hunknown
    have hbound := hbinds.get?_variable w hw _ hname
    have hwritable := hbinds.isWritable w hw
    have hscope : (e.scope sorts).symbols.get? w.unknown = none := hsymbol
    rw [hws] at hbound hwritable
    simp only [Expr.evaluate, lower, hscope, hbound]
    cases hs : (e.scope sorts).sort (.str w.unknown) with
    | int =>
      have hfloor : (m.get .int w.unknown).floor = (m.get .int w.unknown).num := by
        rw [Rat.floor, if_pos (hint _)]
      refine ⟨congrArg (fun n => Except.ok (Value.int n)) hfloor, fun l1 hl1 => ?_⟩
      cases hl1
      refine ⟨⟨.int (.int (m.get .int w.unknown).num), []⟩, ?_, rfl⟩
      simp only [Model.constant, Json.ofScalar, ofConstant, Json.scalar?,
        ofScalar, ofInt, if_pos (hwritable hs), Except.map]
    | bool =>
      refine ⟨rfl, fun l1 hl1 => ?_⟩
      cases hl1
      exact ⟨⟨.bool (.bool (m.get .bool w.unknown != 0)), []⟩, rfl, rfl⟩
    | real => exact absurd hs (hsort _)

end Solutions

/-! ## Evaluation -/

theorem evaluate_eq_of_agrees {e : Engine} {condition : Json} {values : Table Json Json} {g : Expr}
    {bound : Table String Json} {l : Lowered} {o : Except EvaluationFault (Value ℚ)}
    (hg : Guard.ofJson condition = .ok g)
    (hvalues : ∀ x ∈ e.variablesOf g, values.contains (.str x))
    (hbound : e.bindAll none values = .ok bound)
    (hlower : lower ⟨fun _ => .int, bound⟩ g = .ok l)
    (hagrees : l.Agrees Valuation.zero.interpretation o) :
    e.evaluate condition values none = match o with
      | .ok _ => literalOf l.term
      | .error _ => .error (.guard ⟨condition.textOrEmpty, .divisionByZero⟩) := by
  have hmissing : (e.variablesOf g).filter (fun x => !values.contains (.str x)) = [] :=
    filter_eq_nil_iff.mpr fun x hx => by simp [hvalues x hx]
  unfold evaluate
  rw [hg, ok_bind, hmissing]
  simp only [hbound, ok_bind, hlower]
  cases o with
  | ok v =>
    have hdefined : (l.sides.any fun side => !(side.eval .zero : Bool)) = false :=
      any_eq_false.mpr fun side hside => by
        simp [← Term.denote_interpretation, hagrees.1 side hside]
    rw [hdefined]
    rfl
  | error fault =>
    obtain ⟨-, side, hside, hfalse⟩ := hagrees
    have hzero : (l.sides.any fun side => !(side.eval .zero : Bool)) = true :=
      any_eq_true.mpr ⟨side, hside, by simp [← Term.denote_interpretation, hfalse]⟩
    rw [hzero]
    rfl

theorem literalOf_of_truth {t : AnyTerm}
    (h : (t.denote Valuation.zero.interpretation).truth = true) :
    literalOf t = .ok "true" ∨ (∃ n : ℤ, n ≠ 0 ∧ literalOf t = digits n) ∨
      ∃ r : ℚ, r ≠ 0 ∧ literalOf t = write .real r := by
  cases t with
  | bool t =>
    rw [AnyTerm.denote, Term.denote_interpretation] at h
    refine .inl ?_
    rw [literalOf, show t.eval .zero = true from h]
    rfl
  | int t =>
    rw [AnyTerm.denote, Term.denote_interpretation] at h
    refine .inr (.inl ⟨t.eval .zero, of_decide_eq_true h, ?_⟩)
    rw [literalOf, write, Rat.num_intCast]
  | real t =>
    rw [AnyTerm.denote, Term.denote_interpretation] at h
    exact .inr (.inr ⟨t.eval .zero, of_decide_eq_true h, rfl⟩)

/-- Solving and evaluating agree: in every solution of a query over integers and truth values, every
condition in which no name is both a named constant and a variable of the query evaluates to
something true.  That is `true`, or a number that is not zero, as far as it can be written. -/
theorem evaluate_true_of_satisfies {e : Engine} {domains : List Domain} {types : VariableTypes}
    {conditions : List Json} {guards : List Expr} {q : Query} {m : Model}
    {a : List (Json × String)} (htypes : ∀ type ∈ types.values, e.sortOf type ≠ .ok .real)
    (hguards : conditions.mapM Guard.ofJson = .ok guards)
    (hquery : e.query domains types guards = .ok q) (hint : m.IsIntegral)
    (hmodel : m.satisfies q.formula = true) (hliterals : q.literals m = .ok a) :
    ∀ condition ∈ conditions, ∀ g, Guard.ofJson condition = .ok g →
      (∀ x ∈ g.freeNames, e.symbols.contains x = true → ∀ w ∈ q.vars, w.variableName ≠ .str x) →
      e.evaluate condition (assignedValues a) none = .ok "true" ∨
        (∃ n : ℤ, n ≠ 0 ∧ e.evaluate condition (assignedValues a) none = Literal.digits n) ∨
        ∃ r : ℚ, r ≠ 0 ∧
          e.evaluate condition (assignedValues a) none = Literal.write .real r := by
  intro condition hcondition g hofJson hclear
  obtain ⟨sorts, hsorts, hasks⟩ := exists_asks hquery
  have hsort := sort_scope_ne_real htypes hsorts
  obtain ⟨bound, hbound, hbinds⟩ := hasks.exists_binds hsort hliterals
  have hg : g ∈ guards := by
    obtain ⟨g', hg', hof⟩ := (mapM_eq_ok hguards).1 condition hcondition
    exact Except.ok.inj (hofJson.symm.trans hof) ▸ hg'
  obtain ⟨text, hparse⟩ := Guard.exists_parse_of_ofJson hofJson
  have hnames := fun x hx => hbinds.evaluate_name hasks hsort hint hparse hg hx (hclear x hx)
  obtain ⟨l1, hl1, hterm, hsides⟩ := hasks.exists_lowered g hg
  obtain ⟨l2, hl2, -⟩ := Lowering.exists_lower_congr (fun x hx => (hnames x hx).2) hl1
  have hholds : ∀ t ∈ q.formula, t.denote m.valuation.interpretation = true := by
    intro t ht
    rw [Term.denote_interpretation]
    exact List.all_eq_true.mp hmodel t ht
  -- The query's reading of the guard has a value, which is true, and evaluation has the same.
  have hagrees := Lowering.lower_agrees (e.scope sorts) m.valuation.interpretation g hl1
  have hagrees' := Lowering.lower_agrees ⟨fun _ => .int, bound⟩ Valuation.zero.interpretation g hl2
  rw [← Expr.evaluate_congr fun x hx => (hnames x hx).1] at hagrees'
  cases hvalue : g.evaluate (e.scope sorts) m.valuation.interpretation.toInputValues with
  | error fault =>
    rw [hvalue] at hagrees
    obtain ⟨-, side, hside, hfalse⟩ := hagrees
    exact nomatch (hholds side (hsides side hside)).symm.trans hfalse
  | ok w =>
    rw [hvalue] at hagrees hagrees'
    have htruth : w.truth := by
      rw [← hagrees.2, ← AnyTerm.denote_asBool]
      exact hholds _ hterm
    have hcontained : ∀ x ∈ e.variablesOf g, (assignedValues a).contains (.str x) := by
      intro x hx
      obtain ⟨w, hw, hname⟩ := hasks.exists_variable g hg x hx
      exact hbinds.contains w hw x hname
    rw [evaluate_eq_of_agrees hofJson hcontained hbound hl2 hagrees']
    exact literalOf_of_truth (hagrees'.2 ▸ htruth)

theorem isIntegral_of_values {m : Model} (h : ∀ v ∈ m.values, v.den = 1) : m.IsIntegral := by
  intro x
  show ((m.values[m.names.idxOf (x, .int)]?).getD 0).den = 1
  cases hget : m.values[m.names.idxOf (x, .int)]? with
  | none => rfl
  | some v => exact h v (mem_of_getElem? hget)

/-- Whether a model solves a query for some conditions, so that a test of the query and the literals
passes. -/
def solvesWith (e : Engine) (domains : List Domain) (types : VariableTypes) (conditions : List Json)
    (m : Model) (test : Query → List (Json × String) → Bool) : Bool :=
  match conditions.mapM Guard.ofJson with
  | .error _ => false
  | .ok guards =>
    match e.query domains types guards with
    | .error _ => false
    | .ok q =>
      match q.literals m with
      | .error _ => false
      | .ok a => m.satisfies q.formula && test q a

theorem exists_of_solvesWith {e : Engine} {domains : List Domain} {types : VariableTypes}
    {conditions : List Json} {m : Model} {test : Query → List (Json × String) → Bool}
    (h : e.solvesWith domains types conditions m test) :
    ∃ guards q a, conditions.mapM Guard.ofJson = .ok guards ∧
      e.query domains types guards = .ok q ∧ q.literals m = .ok a ∧
      m.satisfies q.formula ∧ test q a := by
  unfold solvesWith at h
  split at h
  · cases h
  · rename_i guards hguards
    split at h
    · cases h
    · rename_i q hq
      split at h
      · cases h
      · rename_i a ha
        rw [Bool.and_eq_true] at h
        exact ⟨guards, q, a, hguards, hq, ha, h.1, h.2⟩

def limited : Engine := ⟨none, .ofList [("LIMIT", .int 5)]⟩

def limitedTypes : VariableTypes := .ofList [(.str "x", .str "int"), (.str "flag", .str "_Bool")]

def limitedDomains : List Domain := [.range (.str "x") (.int 0) (.int 9) (.str "user")]

/-- A comparison with the constant, and a number that counts as a condition. -/
def limitedConditions : List Json := [.str "x + flag == LIMIT", .str "x % 3"]

def limitedModel : Model := ⟨[("x", .int), ("flag", .bool)], [4, 1], [], []⟩

theorem sortOf_limitedTypes : ∀ type ∈ limitedTypes.values, limited.sortOf type ≠ .ok .real := by
  have hvalues : limitedTypes.values = [.str "int", .str "_Bool"] := rfl
  have hint : limited.sortOf (.str "int") = .ok .int := eq_ok_of_toOption (by decide +kernel)
  have hbool : limited.sortOf (.str "_Bool") = .ok .bool := eq_ok_of_toOption (by decide +kernel)
  rw [hvalues]
  simp [hint, hbool]

theorem evaluate_true_of_satisfies_limited :
    ∃ guards q a, limitedConditions.mapM Guard.ofJson = .ok guards ∧
      limited.query limitedDomains limitedTypes guards = .ok q ∧
      limitedModel.IsIntegral ∧ limitedModel.satisfies q.formula = true ∧
      q.literals limitedModel = .ok a ∧ ∀ condition ∈ limitedConditions,
        limited.evaluate condition (assignedValues a) none = .ok "true" ∨
        (∃ n : ℤ, n ≠ 0 ∧ limited.evaluate condition (assignedValues a) none = Literal.digits n) ∨
        ∃ r : ℚ, r ≠ 0 ∧
          limited.evaluate condition (assignedValues a) none = Literal.write .real r := by
  have hsolves : limited.solvesWith limitedDomains limitedTypes limitedConditions limitedModel
      (fun q _ => q.vars.all fun w => !w.variableName == .str "LIMIT") := by
    decide +kernel
  obtain ⟨guards, q, a, hguards, hquery, hliterals, hmodel, hvars⟩ := exists_of_solvesWith hsolves
  have hint : limitedModel.IsIntegral := isIntegral_of_values (by decide)
  refine ⟨guards, q, a, hguards, hquery, hint, hmodel, hliterals, fun condition hcondition => ?_⟩
  obtain ⟨g, -, hg⟩ := (mapM_eq_ok hguards).1 condition hcondition
  refine evaluate_true_of_satisfies sortOf_limitedTypes hguards hquery hint hmodel hliterals
    condition hcondition g hg fun x _ hsymbol w hw => ?_
  have hlimit : x = "LIMIT" := by
    have hbeq : ("LIMIT" == x || false) := hsymbol
    rw [Bool.or_false] at hbeq
    exact (eq_of_beq hbeq).symm
  have hother := List.all_eq_true.mp hvars w hw
  intro hname
  rw [hname, hlimit] at hother
  cases hother

def shadowed : Engine := ⟨none, .ofList [("N", .int 5)]⟩

def shadowedTypes : VariableTypes := .ofList [(.str "N", .str "int")]

def shadowedModel : Model := ⟨[("N", .int)], [3], [], []⟩

/-- Where a name is both a named constant and a variable, a query takes the constant and evaluation
the variable, so that a condition that is solved may evaluate to `false`. -/
theorem evaluate_false_of_shadowed :
    (∀ type ∈ shadowedTypes.values, shadowed.sortOf type ≠ .ok .real) ∧
    ∃ guards q a, [Json.str "N == 5"].mapM Guard.ofJson = .ok guards ∧
      shadowed.query [.exactly (.str "N") (.int 3) (.str "user")] shadowedTypes guards = .ok q ∧
      shadowedModel.IsIntegral ∧ shadowedModel.satisfies q.formula = true ∧
      q.literals shadowedModel = .ok a ∧
      shadowed.evaluate (.str "N == 5") (assignedValues a) none = .ok "false" := by
  have hsolves : shadowed.solvesWith [.exactly (.str "N") (.int 3) (.str "user")] shadowedTypes
      [.str "N == 5"] shadowedModel (fun _ a =>
        (shadowed.evaluate (.str "N == 5") (assignedValues a) none).toOption ==
          some "false") := by
    decide +kernel
  obtain ⟨guards, q, a, hguards, hquery, hliterals, hmodel, hfalse⟩ := exists_of_solvesWith hsolves
  have hsort : shadowed.sortOf (.str "int") = .ok .int := eq_ok_of_toOption (by decide +kernel)
  have hvalues : shadowedTypes.values = [.str "int"] := rfl
  refine ⟨by rw [hvalues]; simp [hsort], guards, q, a, hguards, hquery,
    isIntegral_of_values (by decide), hmodel, hliterals, eq_ok_of_toOption (eq_of_beq hfalse)⟩

end Engine

end Branchwise
