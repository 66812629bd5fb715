import Branchwise.Proofs.Engine.Agreement
import Branchwise.Proofs.Engine.Samples
import Branchwise.Proofs.Guard.Composition
import Branchwise.Proofs.Number.ReadBack

/-!
# Outputs

An output is asked for by a guard: its name equals the text of a literal.  Numbers are read back
from their texts, but a truth value is written as a word that reads as a name, so the output only
has to equal whatever that name stands for.
-/

namespace Branchwise

open Guard List Number

/-! ## Texts of literals -/

namespace Guard

variable {k : Nat} {s : List Char} {g value : Expr} {x y text : String}

theorem Written.of_name (h : Written .full k s g) (hg : g = .name y) : Written .full 6 s g := by
  induction h with
  | literal h => exact (Written.literal h).looser
  | name h => exact (Written.name h).looser
  | paren h1 h2 h => exact (Written.paren h1 h2 h).looser
  | not | neg | binary => cases hg
  | fold hb h hsign hnumber => exact .fold hb h hsign hnumber
  | plus hb h hsign => exact .plus hb h hsign
  | looser _ ih => exact ih hg

theorem parse_of_written (h : Written .full k text.toList g) : parse text = .ok g :=
  parse_eq_ok_iff.mpr ⟨[], _, [], .nil, .nil, by simp, h.of_le k.zero_le⟩

theorem parse_equation (hx : parse x = .ok (.name y)) (htext : parse text = .ok value) :
    parse (x ++ " == (" ++ text ++ ")") = .ok (.binary .eq (.name y) value) := by
  obtain ⟨b1, s, b2, h1, h2, heq, hs⟩ := parse_eq_ok_iff.mp hx
  have hgroup : ("(" ++ text ++ ")").toList = '(' :: (text.toList ++ [')']) := by simp
  have hparen := written_paren_of_parse htext
  have hparsed : parse ("(" ++ text ++ ")") = .ok value :=
    parse_of_written (k := 7) (hgroup ▸ hparen)
  have hsplit : x ++ " == (" ++ text ++ ")" =
      x ++ (" " ++ BinaryOp.symbol .eq ++ " ") ++ ("(" ++ text ++ ")") := by
    apply String.toList_injective
    simp [BinaryOp.symbol]
  rw [hsplit, (parse_operator_iff hx hparsed .eq).2]
  exact ⟨⟨b1, s, b2, h1, h2, heq, (hs.of_name rfl).of_le (by decide)⟩,
    [], _, [], .nil, .nil, by simp, hparen.of_le (by decide)⟩

end Guard

namespace Scalar

/-- What the text of a literal is read as: a number as itself, and a truth value as a name. -/
def reading : Scalar → Expr
  | .bool b => .name (if b then "True" else "False")
  | .int n => .int n
  | .real x => .real x

/-- Literals that have a text: integers that are not too long, and finite numbers. -/
def IsReadable : Scalar → Prop
  | .bool _ => True
  | .int n => isWritable n
  | .real x => x.IsCanonical

theorem IsReadable.parse_plain {c : Scalar} (h : c.IsReadable) :
    parse (Json.ofScalar c).plain = .ok c.reading := by
  cases c with
  | bool b => cases b <;> decide +kernel
  | int n =>
    have hrenders : Guard.Renders .plain (toString n) (.int n) :=
      ⟨[], _, [], .nil, .nil, by simp, (written_int n).of_le (by decide)⟩
    exact hrenders.parse_eq_ok_iff.mpr ((Expr.isWritable_int n).trans h)
  | real x => exact parse_of_written (Number.written_text h)

end Scalar

/-! ## Queries for outputs -/

theorem allHold_conditions_iff {K : Type} [Field K] [LinearOrder K] {I : Interpretation K}
    {cs : List Condition} :
    AllHold I (cs.map Condition.term ++ cs.flatMap Condition.sides) ↔
      ∀ c ∈ cs, c.term.denote I = true ∧ AllHold I c.sides := by
  simp only [AllHold, mem_append, mem_map, mem_flatMap]
  constructor
  · intro h c hc
    exact ⟨h _ (.inl ⟨c, hc, rfl⟩), fun s hs => h s (.inr ⟨c, hc, hs⟩)⟩
  · rintro h t (⟨c, hc, rfl⟩ | ⟨c, hc, ht⟩)
    · exact (h c hc).1
    · exact (h c hc).2 t ht

namespace Engine

variable {e : Engine} {x y : String} {c : Scalar} {sorts : Table Json TermSort} {guards : List Expr}
  {q : Query} {K : Type} [Field K] [LinearOrder K] {I : Interpretation K} {r : K}

/-- An output that can be asked for: the text of a name that is no constant, and a literal. -/
structure IsRequest (e : Engine) (x y : String) (c : Scalar) : Prop where
  parse : parse x = .ok (.name y)
  notSymbol : e.symbols.get? y = none
  readable : c.IsReadable

def requestGuard (y : String) (c : Scalar) : Expr := .binary .eq (.name y) c.reading

theorem IsRequest.ofJson (h : e.IsRequest x y c) :
    Guard.ofJson (outputCondition (.str x, .ofScalar c)) = .ok (requestGuard y c) := by
  rw [outputCondition, Guard.ofJson, Json.plain,
    parse_equation h.parse h.readable.parse_plain]
  rfl

/-- The guard of an output holds exactly if its literal is read as something that has the value of
the name. -/
theorem IsRequest.holds_iff [IsStrictOrderedRing K] (h : e.IsRequest x y c) {k : Condition}
    (hk : Encoding.guard (e.scope sorts) (requestGuard y c) = .ok k) (I : Interpretation K) :
    k.term.denote I = true ∧ AllHold I k.sides ↔
      ∃ value, c.reading.evaluate (e.scope sorts) I.toInputValues = .ok value ∧
        value.toReal = I.number ((e.scope sorts).sort (.str y)) y := by
  obtain ⟨l, hl, hk⟩ := bind_eq_ok hk
  cases hk
  have hagrees := Lowering.lower_agrees (e.scope sorts) I _ hl
  have hname : (e.scope sorts).symbols.get? y = none := h.notSymbol
  rw [requestGuard, Expr.evaluate, Expr.evaluate, hname] at hagrees
  cases hvalue : c.reading.evaluate (e.scope sorts) I.toInputValues with
  | error fault =>
    rw [hvalue] at hagrees
    obtain ⟨-, side, hside, hfalse⟩ := hagrees
    exact ⟨fun hholds => absurd (hholds.2 side hside) (by simp [hfalse]), by simp⟩
  | ok value =>
    rw [hvalue] at hagrees
    obtain ⟨hsides, hterm⟩ := hagrees
    have hequal := Value.onNumbers_holds .eq (I.get ((e.scope sorts).sort (.str y)) y) value
    have htruth : l.term.asBool.denote I =
        decide (I.number ((e.scope sorts).sort (.str y)) y = value.toReal) := by
      rw [AnyTerm.denote_asBool, hterm]
      exact hequal
    simp only [htruth, decide_eq_true_eq, Except.ok.injEq, exists_eq_left']
    exact ⟨fun h => h.1.symm, fun h => ⟨h.symm, hsides⟩⟩

theorem Asks.exists_number_iff (hasks : e.Asks sorts guards q)
    (hunknown : Encoding.unknownName (.str y) = .ok y) (hsymbol : e.symbols.get? y = none)
    {g : Expr} (hg : g ∈ guards) (hy : .name y ∈ g.walk) (P : K → Prop) :
    (∃ w ∈ q.vars, w.variableName = .str y ∧ P (I.number w.sort w.unknown)) ↔
      P (I.number ((e.scope sorts).sort (.str y)) y) := by
  have hnumber {w : QueryVariable} (hw : w ∈ q.vars) (hname : w.variableName = .str y) :
      w.sort = (e.scope sorts).sort (.str y) ∧ w.unknown = y := by
    obtain ⟨-, hsort, hw⟩ := variableName_of_queryVariable (hname ▸ hasks.variable_eq w hw)
    exact ⟨hsort, Except.ok.inj (hw.symm.trans hunknown)⟩
  constructor
  · rintro ⟨w, hw, hname, hP⟩
    obtain ⟨hsort, hu⟩ := hnumber hw hname
    rwa [hsort, hu] at hP
  · intro hP
    have hfree : y ∈ e.variablesOf g := mem_filter.mpr
      ⟨Expr.mem_freeNames.mpr hy, by simp [Table.contains_eq_isSome_get?, hsymbol]⟩
    obtain ⟨w, hw, hname⟩ := hasks.exists_variable g hg y hfree
    obtain ⟨hsort, hu⟩ := hnumber hw hname
    exact ⟨w, hw, hname, by rwa [hsort, hu]⟩

/-- What the models of a query say of an output with a number.  An integer and a real are its value;
in the place of a truth value stands the name that is spelled like it. -/
def Pins (e : Engine) (q : Query) (I : Interpretation K) (r : K) : Scalar → Prop
  | .int n => (n : K) = r
  | .real x => ∃ d : ℚ, x.decimalValue? = some d ∧ (d : K) = r
  | .bool b =>
    match e.symbols.get? (if b then "True" else "False") with
    | some constant => ∃ value : Value K, Value.ofConstant constant = .ok value ∧ value.toReal = r
    | none => ∃ w ∈ q.vars, w.variableName = .str (if b then "True" else "False") ∧
        I.number w.sort w.unknown = r

theorem pins_iff (hasks : e.Asks sorts guards q) (hguard : requestGuard y c ∈ guards) :
    e.Pins q I r c ↔ ∃ value : Value K,
      c.reading.evaluate (e.scope sorts) I.toInputValues = .ok value ∧ value.toReal = r := by
  cases c with
  | int n => simp [Pins, Scalar.reading, Expr.evaluate, Value.toReal]
  | real x =>
    simp only [Pins, Scalar.reading, Expr.evaluate, Value.ofScalar]
    cases x.decimalValue? with
    | none => simp
    | some d => simp [Value.toReal]
  | bool b =>
    have hsymbols : (e.scope sorts).symbols = e.symbols := rfl
    simp only [Pins, Scalar.reading, Expr.evaluate, hsymbols]
    generalize hword : (if b then "True" else "False") = word
    cases hsymbol : e.symbols.get? word with
    | some constant => rfl
    | none =>
      have hunknown : Encoding.unknownName (.str word) = .ok word := by
        rw [← hword]
        cases b <;> rfl
      have hwalk : .name word ∈ (requestGuard y (.bool b)).walk := by
        simp [requestGuard, Scalar.reading, hword, Expr.walk]
      rw [hasks.exists_number_iff hunknown hsymbol hguard hwalk (· = r)]
      simp [Interpretation.number]

theorem IsRequest.exists_number_iff (h : e.IsRequest x y c) (hasks : e.Asks sorts guards q)
    (hguard : requestGuard y c ∈ guards) (P : K → Prop) :
    (∃ w ∈ q.vars, w.variableName = .str y ∧ P (I.number w.sort w.unknown)) ↔
      P (I.number ((e.scope sorts).sort (.str y)) y) := by
  have hfree : y ∈ (Expr.name y).freeNames := Expr.mem_freeNames.mpr (by simp [Expr.walk])
  exact hasks.exists_number_iff (unknownName_of_mem_freeNames h.parse hfree) h.notSymbol
    hguard (by simp [requestGuard, Expr.walk]) P

/-- The types of a query for outputs: an output without a type is an integer. -/
def outputTypes (types : VariableTypes) (outputs : Table Json Json) : VariableTypes :=
  outputs.keys.foldl (fun (t : VariableTypes) x => t.putNew x (.str "int")) types

/-- **Outputs are pinned to numbers.**  The models of a query for outputs are the models of the
query for the domains alone in which every output has the number that is asked for; an output for
which a truth value is asked has the value of a name. -/
theorem outputs_hold_iff (K : Type) [Field K] [LinearOrder K] [IsStrictOrderedRing K]
    (domains : List Domain) (types : VariableTypes) {outputs : Table Json Json}
    (houtputs : ∀ o ∈ outputs.entries, ∃ x y c, o = (.str x, .ofScalar c) ∧ e.IsRequest x y c) :
    ∃ guards, (outputs.entries.map outputCondition).mapM Guard.ofJson = .ok guards ∧
      (∀ decide, e.solveOutputs decide domains types outputs =
        orUnknown (do (← e.query domains (outputTypes types outputs) guards).solve decide)) ∧
      ∀ q, e.query domains (outputTypes types outputs) guards = .ok q →
        ∃ q₀, e.query domains (outputTypes types outputs) [] = .ok q₀ ∧
          ∀ I : Interpretation K, q.Holds I ↔ q₀.Holds I ∧
            ∀ x y c, (.str x, .ofScalar c) ∈ outputs.entries → e.IsRequest x y c →
              ∃ w ∈ q.vars, w.variableName = .str y ∧
                e.Pins q I (I.number w.sort w.unknown) c := by
  obtain ⟨guards, hguards⟩ : ∃ guards,
      (outputs.entries.map outputCondition).mapM Guard.ofJson = .ok guards := by
    refine exists_mapM_eq_ok fun condition hcondition => ?_
    obtain ⟨o, ho, rfl⟩ := mem_map.mp hcondition
    obtain ⟨x, y, c, rfl, hrequest⟩ := houtputs o ho
    exact ⟨_, hrequest.ofJson⟩
  refine ⟨guards, hguards, fun decide => ?_, fun q hq => ?_⟩
  · rw [solveOutputs, solve, hguards]
    rfl
  obtain ⟨sorts, cs, hold, hsorts, hdeclared, hcs, hhold, hformula⟩ :=
    exists_conditions_of_query hq
  obtain ⟨q0, hq0, hformula0⟩ := exists_query hsorts hdeclared hcs
  obtain ⟨sorts', hsorts', hasks⟩ := exists_asks hq
  obtain rfl := Except.ok.inj (hsorts.symm.trans hsorts')
  have hguard {x y : String} {c : Scalar} (ho : (.str x, .ofScalar c) ∈ outputs.entries)
      (hrequest : e.IsRequest x y c) : requestGuard y c ∈ guards := by
    obtain ⟨g, hg, hparse⟩ := (mapM_eq_ok hguards).1 _ (mem_map_of_mem ho)
    exact Except.ok.inj (hrequest.ofJson.symm.trans hparse) ▸ hg
  refine ⟨q0, hq0, fun I => ?_⟩
  rw [Query.Holds, Query.Holds, hformula, hformula0, allHold_conditions_iff,
    allHold_conditions_iff, forall_mem_append]
  refine and_congr_right fun _ => ⟨fun hholds x y c ho hrequest => ?_, fun hpins k hk => ?_⟩
  · have hg := hguard ho hrequest
    obtain ⟨k, hk, hkguard⟩ := (mapM_eq_ok hhold).1 _ hg
    have hpinned := (pins_iff hasks hg).mpr ((hrequest.holds_iff hkguard I).mp (hholds k hk))
    exact (hrequest.exists_number_iff hasks hg (fun r => e.Pins q I r c)).mpr hpinned
  · obtain ⟨g, hg, hkguard⟩ := (mapM_eq_ok hhold).2 k hk
    obtain ⟨condition, hcondition, hparse⟩ := (mapM_eq_ok hguards).2 g hg
    obtain ⟨o, ho, rfl⟩ := mem_map.mp hcondition
    obtain ⟨x, y, c, rfl, hrequest⟩ := houtputs o ho
    obtain rfl := Except.ok.inj (hrequest.ofJson.symm.trans hparse)
    have hpinned := (hrequest.exists_number_iff hasks hg (fun r => e.Pins q I r c)).mp
      (hpins x y c ho hrequest)
    exact (hrequest.holds_iff hkguard I).mpr ((pins_iff hasks hg).mp hpinned)

def half : Binary64 := .finite false (2 ^ 52) (-53)

theorem isRequest_empty {x : String} (hx : parse x = .ok (.name x)) (hc : c.IsReadable) :
    (⟨none, .empty⟩ : Engine).IsRequest x x c :=
  ⟨hx, rfl, hc⟩

theorem outputs_hold_iff_numbers : let e : Engine := ⟨none, .empty⟩
    let types : VariableTypes := .ofList [(.str "f", .str "double")]
    let outputs : Table Json Json := .ofList [(.str "r", .int (-3)), (.str "f", .real half)]
    (∀ o ∈ outputs.entries, ∃ x y c, o = (.str x, .ofScalar c) ∧ e.IsRequest x y c) ∧
    ∃ guards q, (outputs.entries.map outputCondition).mapM Guard.ofJson = .ok guards ∧
      e.query [] (outputTypes types outputs) guards = .ok q ∧
      (∃ I : Interpretation ℚ, q.Holds I) ∧
      ∀ I : Interpretation ℚ, q.Holds I → ∃ w ∈ q.vars, w.variableName = .str "r" ∧
        I.number w.sort w.unknown = (-3 : ℤ) := by
  intro e types outputs
  have hr : e.IsRequest "r" "r" (.int (-3)) :=
    isRequest_empty (by decide +kernel) (by decide +kernel : isWritable (-3))
  have hf : e.IsRequest "f" "f" (.real half) :=
    isRequest_empty (by decide +kernel) ⟨by decide, by decide, by decide, .inl le_rfl⟩
  have hentries : outputs.entries = [(.str "r", .int (-3)), (.str "f", .real half)] := rfl
  have houtputs : ∀ o ∈ outputs.entries, ∃ x y c, o = (.str x, .ofScalar c) ∧
      e.IsRequest x y c := by
    rw [hentries]
    simp only [forall_mem_cons, not_mem_nil, false_implies, implies_true, and_true]
    exact ⟨⟨_, _, _, rfl, hr⟩, _, _, _, rfl, hf⟩
  obtain ⟨guards, hguards, -, hmodels⟩ := outputs_hold_iff ℚ [] types houtputs
  have hlist : (outputs.entries.map outputCondition).mapM Guard.ofJson =
      .ok [requestGuard "r" (.int (-3)), requestGuard "f" (.real half)] := by
    have hr' : Guard.ofJson (outputCondition (.str "r", .int (-3))) = .ok _ := hr.ofJson
    have hf' : Guard.ofJson (outputCondition (.str "f", .real half)) = .ok _ := hf.ofJson
    rw [hentries, map_cons, mapM_cons, hr', ok_bind, map_cons, mapM_cons, hf']
    rfl
  obtain rfl := Except.ok.inj (hlist.symm.trans hguards)
  obtain ⟨q, hq, hholds⟩ := Query.exists_holds (v := ⟨fun _ => -3, fun _ => 1 / 2, fun _ => false,
    fun _ => 0, fun _ => 0⟩) (o := e.query [] (outputTypes types outputs)
      [requestGuard "r" (.int (-3)), requestGuard "f" (.real half)]) (by decide +kernel)
  refine ⟨houtputs, _, q, hlist, hq, ⟨_, hholds⟩, fun I hI => ?_⟩
  obtain ⟨q0, -, hiff⟩ := hmodels q hq
  obtain ⟨w, hw, hname, hpins⟩ := ((hiff I).mp hI).2 "r" "r" (.int (-3)) mem_cons_self hr
  exact ⟨w, hw, hname, hpins.symm⟩

/-- An output that should be true and is false in a model. -/
theorem output_true_not_pinned : let e : Engine := ⟨none, .empty⟩
    let outputs : Table Json Json := .ofList [(.str "x", .bool true)]
    ∃ guards q, ∃ v : Valuation,
      (outputs.entries.map outputCondition).mapM Guard.ofJson = .ok guards ∧
      e.query [.exactly (.str "x") (.int 0) (.str "user")]
        (outputTypes (.ofList [(.str "x", .str "_Bool")]) outputs) guards = .ok q ∧
      q.Holds v.interpretation ∧
      ∃ w ∈ q.vars, w.variableName = .str "x" ∧ v.number w.sort w.unknown = 0 := by
  intro e outputs
  have hrequest : e.IsRequest "x" "x" (.bool true) := isRequest_empty (by decide +kernel) trivial
  obtain ⟨q, hq, hholds⟩ := Query.exists_holds (v := .zero) (o :=
    e.query [.exactly (.str "x") (.int 0) (.str "user")]
      (outputTypes (.ofList [(.str "x", .str "_Bool")]) outputs) [requestGuard "x" (.bool true)])
    (by decide +kernel)
  obtain ⟨sorts, -, hasks⟩ := exists_asks hq
  refine ⟨_, q, .zero, ?_, hq, hholds, ?_⟩
  · have hparse : Guard.ofJson (outputCondition (.str "x", .bool true)) = .ok _ := hrequest.ofJson
    rw [show outputs.entries = [(.str "x", .bool true)] from rfl, map_cons, mapM_cons,
      hparse]
    rfl
  · simp only [← Valuation.number_interpretation]
    refine (hrequest.exists_number_iff hasks (by simp) (· = 0)).mpr ?_
    cases (e.scope sorts).sort (.str "x") <;> rfl

end Engine

end Branchwise
