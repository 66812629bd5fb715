import Branchwise.Proofs.Flow.Decisions
import Branchwise.Proofs.Flow.Enumeration
import Branchwise.Proofs.Guard.Connectives

/-!
# The conditions of branches and paths

What the texts of a flow graph say when they are read as guards.  The conditions of a two-way
decision are a guard and its negation; the default of a switch negates the disjunction of its cases.
A case puts subject and value beside a bare `==`, so it is their comparison only if nothing in them
binds as loosely.
-/

namespace Branchwise

open List Guard

/-! ## Conditions are not blank -/

theorem Text.isAllBlank_trim {s : String} (h : (trim s).isEmpty = false) :
    isAllBlank (trim s) = false := by
  have hne : (s.toList.dropWhile isBlank).reverse.dropWhile isBlank ≠ [] := by
    intro hnil
    rw [trim, trimChars, hnil] at h
    cases h
  -- The last character that is left is no blank.
  rw [isAllBlank, trim, String.toList_ofList, trimChars, all_reverse, all_eq_false]
  refine ⟨_, head_mem hne, ?_⟩
  rw [head_dropWhile_not isBlank hne]
  decide

namespace Guard

theorem isAllBlank_of_mem {t : String} {c : Char} (hc : c ∈ t.toList) (h : Text.isBlank c = false) :
    Text.isAllBlank t = false := by
  rw [Text.isAllBlank, all_eq_false]
  exact ⟨c, hc, by rw [h]; decide⟩

theorem isAllBlank_negate (t : String) : Text.isAllBlank (negate t) = false :=
  isAllBlank_of_mem (c := '!') (by rw [toList_negate]; exact mem_cons_self) (by decide)

end Guard

namespace Draft

theorem isAllBlank_guardOf (l : Label) : Text.isAllBlank (guardOf l) = false := by
  rw [guardOf]
  split
  · decide
  · rename_i h
    exact Text.isAllBlank_trim (Bool.eq_false_iff.mpr h)

theorem SplitsInto.isAllBlank {n : FlowNode} {specs : List BranchSpec} (h : SplitsInto n specs) :
    ∀ o ∈ specs, Text.isAllBlank o.condition = false := by
  cases h with
  | @twoWay l _ _ _ _ =>
    rw [forall_mem_cons, forall_mem_singleton]
    exact ⟨isAllBlank_guardOf l, isAllBlank_negate _⟩
  | @switch l cases line _ _ =>
    rw [switchSpecs, forall_mem_append, forall_mem_map, forall_mem_singleton]
    constructor
    · intro x _
      exact isAllBlank_of_mem (c := '=') (by simp [caseSpec]) (by decide)
    · cases cases with
      | nil =>
        show Text.isAllBlank "1" = false
        decide
      | cons x cases => exact isAllBlank_negate _

variable {d : Draft}

theorem Decided.isAllBlank (h : Decided d) {b : Branch} (hb : b ∈ d.branches) :
    Text.isAllBlank b.condition = false := by
  have hx : (b.decisionNode, b.spec) ∈ d.outcomes := mem_map_of_mem hb
  obtain ⟨n, hn, hdecision, hid⟩ := h.decision _ hx
  have hat : (b.decisionNode, b.spec) ∈ d.outcomes.filter fun x => x.1 = n.id :=
    mem_filter.mpr ⟨hx, decide_eq_true hid.symm⟩
  exact (h.splits n hn hdecision).isAllBlank b.spec (mem_map_of_mem hat)

end Draft

/-! ## Paths -/

namespace PathSearch

def Conjoined (conditions : Array String) (s : PathSearch) : Prop :=
  ∀ p ∈ s.found, p.condition = conjoin (p.branches.filterMap fun i => conditions[i]?)

theorem Conjoined.record {conditions : Array String} {s : PathSearch} (h : Conjoined conditions s)
    (bs : List Nat) (lines : List Json) : Conjoined conditions (s.record conditions bs lines) := by
  unfold PathSearch.record
  split
  · exact h
  · exact forall_mem_cons.mpr ⟨rfl, h⟩

theorem Conjoined.explore (grid : PathGrid) (limit : Option Nat) (fuel u : Nat) (bs : List Nat)
    (lines : List Json) (onPath : NatSet) {s : PathSearch} (h : Conjoined grid.conditions s) :
    Conjoined grid.conditions (grid.explore limit fuel u bs lines onPath s) :=
  grid.explore_preserves limit (fun _ bs lines hs => hs.record bs lines) _ _ _ _ _ h

end PathSearch

namespace Draft

variable {d : Draft} {limit : Option Nat} {p : FlowPath}

def conditionsAlong (d : Draft) (p : FlowPath) : List String :=
  p.branches.filterMap fun i => (d.branches[i]?).map Branch.condition

theorem condition_eq_conjoin (hp : p ∈ d.graph.paths d.branches limit) :
    p.condition = conjoin (d.conditionsAlong p) := by
  have hstart : PathSearch.Conjoined d.grid.conditions .start := nofun
  have h := hstart.explore d.grid limit (d.graph.nodes.length + 1) FlowGraph.entry [] []
    (NatSet.empty.insert FlowGraph.entry) p (mem_reverse.mp hp)
  rw [h, conditionsAlong]
  simp only [grid, PathGrid.ofGraph, getElem?_toArray, getElem?_map]

theorem Complete.exists_branch_of_mem (hd : d.Complete)
    (hp : p ∈ d.graph.paths d.branches limit) {i : Nat} (hi : i ∈ p.branches) :
    ∃ b, d.branches[i]? = some b := by
  obtain ⟨ws, hroute, heq⟩ := (hd.sound_search limit).route p (mem_reverse.mp hp)
  obtain ⟨b, hb, hid, -⟩ := hd.exists_branch hroute (heq ▸ hi)
  obtain ⟨j, hj⟩ := mem_iff_getElem?.mp hb
  obtain rfl : j = i := (hd.branch_id j b hj).symm.trans hid
  exact ⟨b, hj⟩

theorem Complete.mem_conditionsAlong_iff (hd : d.Complete) (p : FlowPath) (u : String) :
    u ∈ d.conditionsAlong p ↔ ∃ b ∈ d.branches, b.id ∈ p.branches ∧ b.condition = u := by
  rw [conditionsAlong, mem_filterMap]
  constructor
  · rintro ⟨i, hi, hu⟩
    obtain ⟨b, hb, rfl⟩ := Option.map_eq_some_iff.mp hu
    exact ⟨b, mem_of_getElem? hb, (hd.branch_id i b hb).symm ▸ hi, rfl⟩
  · rintro ⟨b, hb, hi, rfl⟩
    obtain ⟨i, hb⟩ := mem_iff_getElem?.mp hb
    rw [hd.branch_id i b hb] at hi
    exact ⟨i, hi, by rw [hb]; rfl⟩

/-- The condition of a path that takes a branch is the conjunction of the conditions of the branches
that it takes, none of them blank. -/
theorem Complete.exists_conjuncts (hd : d.Complete) (hdecided : Decided d)
    (hp : p ∈ d.graph.paths d.branches limit) (hne : p.branches ≠ []) :
    ∃ t ts, p.condition = conjoin (t :: ts) ∧
      (∀ u ∈ t :: ts, Text.isAllBlank u = false) ∧
      ∀ u, u ∈ t :: ts ↔ ∃ b ∈ d.branches, b.id ∈ p.branches ∧ b.condition = u := by
  obtain ⟨i, hi⟩ := exists_mem_of_ne_nil _ hne
  obtain ⟨b, hb⟩ := hd.exists_branch_of_mem hp hi
  have hmem := hd.mem_conditionsAlong_iff p
  have hcondition := condition_eq_conjoin hp
  have hne' : d.conditionsAlong p ≠ [] := ne_nil_of_mem
    ((hmem _).mpr ⟨b, mem_of_getElem? hb, (hd.branch_id i b hb).symm ▸ hi, rfl⟩)
  obtain ⟨t, ts, heq⟩ := exists_cons_of_ne_nil hne'
  rw [heq] at hmem hcondition
  refine ⟨t, ts, hcondition, fun u hu => ?_, hmem⟩
  obtain ⟨b, hb, -, rfl⟩ := (hmem u).mp hu
  exact hdecided.isAllBlank hb

/-! ## Decisions -/

section Decisions

variable {K : Type} [Field K] [LinearOrder K] {scope : NameScope} {a : InputValues K}

theorem outcomesAt_eq (d : Draft) (u : Nat) :
    d.outcomesAt u = (d.branches.filter fun b => b.decisionNode = u).map Branch.spec := by
  simp only [outcomesAt, outcomes, filter_map, map_map]
  rfl

theorem holds_negate_iff {t : String} {p : Bool} (h : TruthIs scope a t p) :
    Guard.Holds scope a (negate t) ↔ ¬Guard.Holds scope a t := by
  rw [h.negate.holds_iff, h.holds_iff]
  simp

theorem truthIs_one : TruthIs scope a "1" true :=
  ⟨.int 1, by cbv, .int 1, rfl, by simp [Value.truth]⟩

theorem holds_defaultCondition_iff {subject : String} {values : List String}
    (h : ∀ v ∈ values, ∃ p, TruthIs scope a (subject ++ " == " ++ v) p) :
    Guard.Holds scope a (defaultCondition subject values) ↔
      ∀ v ∈ values, ¬Guard.Holds scope a (subject ++ " == " ++ v) := by
  cases values with
  | nil => exact ⟨nofun, fun _ => truthIs_one⟩
  | cons v vs =>
    have hcases : ∀ u ∈ (v :: vs).map (fun v => subject ++ " == " ++ v),
        ∃ p, TruthIs scope a u p := forall_mem_map.mpr h
    obtain ⟨p, hp, hiff⟩ := exists_truthIs_join_or hcases
    refine (holds_negate_iff hp).trans ?_
    rw [hp.holds_iff, hiff]
    simp

theorem holds_default_iff_of_cases {l : Label} {cases : List (Json × String)} {bs : List Branch}
    (hbs : bs.map Branch.spec = cases.map (caseSpec (subjectOf l) l.line))
    (htruth : ∀ b ∈ bs, ∃ p, TruthIs scope a b.condition p) :
    Guard.Holds scope a (defaultCondition (subjectOf l) (cases.map Prod.snd)) ↔
      ∀ b ∈ bs, ¬Guard.Holds scope a b.condition := by
  have hconditions : bs.map Branch.condition =
      (cases.map Prod.snd).map fun v => subjectOf l ++ " == " ++ v := by
    have h := congrArg (map BranchSpec.condition) hbs
    rw [map_map, map_map] at h
    rw [map_map]
    exact h
  have hall : ∀ P : String → Prop,
      (∀ b ∈ bs, P b.condition) ↔ ∀ v ∈ cases.map Prod.snd, P (subjectOf l ++ " == " ++ v) := by
    intro P
    rw [← forall_mem_map, hconditions, forall_mem_map]
  rw [holds_defaultCondition_iff ((hall fun u => ∃ p, TruthIs scope a u p).mp htruth)]
  exact (hall fun u => ¬Guard.Holds scope a u).symm

theorem exists_truthIs {t : String} (h : ∃ e v, parse t = .ok e ∧ e.evaluate scope a = .ok v) :
    ∃ p, TruthIs scope a t p := by
  obtain ⟨e, v, he, hv⟩ := h
  exact ⟨v.truth, e, he, v, hv, rfl⟩

/-- **The conditions of one decision split all inputs.**  Where all of them have values, exactly one
of the two conditions of a two-way decision holds; the default of a switch holds exactly if no case
does, so some branch is always taken, and never the default together with a case. -/
theorem branch_conditions_split_inputs {function : Json} {body : Tree}
    (h : ofBody function body = .ok d) {n : FlowNode} (hn : n ∈ d.graph.decisions)
    (scope : NameScope) (a : InputValues K)
    (hvalues : ∀ b ∈ d.branches, b.decisionNode = n.id →
      ∃ e v, Guard.parse b.condition = .ok e ∧ e.evaluate scope a = .ok v) :
    (n.source ≠ some .switch → ∃ t f, (d.branches.filter fun b => b.decisionNode = n.id) = [t, f] ∧
      (Guard.Holds scope a t.condition ∧ ¬Guard.Holds scope a f.condition ∨
        ¬Guard.Holds scope a t.condition ∧ Guard.Holds scope a f.condition)) ∧
    (n.source = some .switch → ∃ cases default,
      (d.branches.filter fun b => b.decisionNode = n.id) = cases ++ [default] ∧
      (∀ b ∈ cases, b.kind = .case) ∧ default.isDefault = true ∧
      (Guard.Holds scope a default.condition ↔ ∀ b ∈ cases, ¬Guard.Holds scope a b.condition) ∧
      (∃ b ∈ cases ++ [default], Guard.Holds scope a b.condition) ∧
      ∀ b ∈ cases, ¬(Guard.Holds scope a default.condition ∧ Guard.Holds scope a b.condition)) := by
  have hdecided : Decided d := ofBody_eq_ok h ▸ decided_drawn function body
  obtain ⟨hnode, hkind⟩ := List.mem_filter.mp hn
  have hsplits := hdecided.splits n hnode (of_decide_eq_true hkind)
  have htruth : ∀ b ∈ d.branches.filter (fun b => decide (b.decisionNode = n.id)),
      ∃ p, Guard.TruthIs scope a b.condition p := by
    intro b hb
    obtain ⟨hb, hat⟩ := List.mem_filter.mp hb
    exact exists_truthIs (hvalues b hb (of_decide_eq_true hat))
  rw [outcomesAt_eq] at hsplits
  generalize d.branches.filter (fun b => decide (b.decisionNode = n.id)) = bs at hsplits htruth ⊢
  generalize hspecs : bs.map Branch.spec = specs at hsplits
  cases hsplits with
  | @twoWay l line1 line2 hsource hne =>
    refine ⟨fun _ => ?_, fun hswitch => absurd (Option.some.inj (hsource.symm.trans hswitch)) hne⟩
    obtain ⟨t, rest, rfl, ht, hrest⟩ := List.map_eq_cons_iff.mp hspecs
    obtain ⟨f, rest, rfl, hf, hnil⟩ := List.map_eq_cons_iff.mp hrest
    obtain rfl := List.map_eq_nil_iff.mp hnil
    refine ⟨t, f, rfl, ?_⟩
    have htcondition : t.condition = guardOf l := congrArg BranchSpec.condition ht
    have hfcondition : f.condition = Guard.negate t.condition :=
      (congrArg BranchSpec.condition hf).trans (congrArg Guard.negate htcondition.symm)
    obtain ⟨p, hp⟩ := htruth t List.mem_cons_self
    rw [hfcondition, holds_negate_iff hp]
    by_cases hholds : Guard.Holds scope a t.condition
    · exact .inl ⟨hholds, not_not_intro hholds⟩
    · exact .inr ⟨hholds, hholds⟩
  | @switch l specs line hsource _ =>
    refine ⟨fun hne => absurd hsource hne, fun _ => ?_⟩
    obtain ⟨cases, rest, rfl, hcases, hrest⟩ := List.map_eq_append_iff.mp hspecs
    obtain ⟨default, rest, rfl, hdefault, hnil⟩ := List.map_eq_cons_iff.mp hrest
    obtain rfl := List.map_eq_nil_iff.mp hnil
    rw [List.forall_mem_append] at htruth
    have hiff := holds_default_iff_of_cases hcases htruth.1
    have hcondition : default.condition = defaultCondition (subjectOf l) (specs.map Prod.snd) :=
      congrArg BranchSpec.condition hdefault
    rw [← hcondition] at hiff
    refine ⟨cases, default, rfl, ?_, ?_, hiff, ?_, ?_⟩
    · intro b hb
      obtain ⟨x, -, hx⟩ := List.mem_map.mp (hcases ▸ List.mem_map_of_mem hb)
      exact (congrArg BranchSpec.kind hx).symm
    · exact decide_eq_true (congrArg BranchSpec.kind hdefault)
    · by_cases hsome : ∃ b ∈ cases, Guard.Holds scope a b.condition
      · obtain ⟨b, hb, hholds⟩ := hsome
        exact ⟨b, mem_append_left _ hb, hholds⟩
      · refine ⟨default, by simp, hiff.mpr fun b hb hholds => hsome ⟨b, hb, hholds⟩⟩
    · exact fun b hb hboth => hiff.mp hboth.1 b hb hboth.2

def switchOn (subject value : String) : Tree :=
  .node ⟨.switch, .null, .null, .null, .str subject, .null, .null, .null, .null⟩
    [.node ⟨.case, .null, .null, .null, .null, .null, .null, .null, .str value⟩ []]

def quotedBody : Tree :=
  .node ⟨.compound, .null, .null, .null, .null, .null, .null, .null, .null⟩
    [.node ⟨.ifElse, .null, .null, .null, .str "c == '('", .null, .null, .null, .null⟩ [],
      switchOn "x % 3" "1"]

theorem drawn_quotedBody :
    (ofBody .null quotedBody).isOk ∧
      (drawn .null quotedBody).graph.decisions.map
        (fun n => (n.id, n.source, n.text.textOrEmpty)) =
          [(3, some .ifElse, "c == '('"), (6, some .switch, "x % 3")] ∧
      (drawn .null quotedBody).branches.map (fun b => (b.id, b.condition)) =
        [(0, "c == '('"), (1, negate "c == '('"), (2, "x % 3 == 1"),
          (3, negate "x % 3 == 1")] ∧
      (∃ b ∈ (drawn .null quotedBody).branches,
        b.decisionNode = 6 ∧ b.kind = .case ∧ b.caseValue = some "1") ∧
      ∃ p ∈ (drawn .null quotedBody).graph.paths (drawn .null quotedBody).branches none,
        p.branches = [1, 2] := by
  decide +kernel

theorem ofBody_quotedBody : ofBody .null quotedBody = .ok (drawn .null quotedBody) :=
  ofBody_of_isOk drawn_quotedBody.1

theorem decisions_quotedBody :
    ∃ test switch, (drawn .null quotedBody).graph.decisions = [test, switch] ∧
      test.source = some .ifElse ∧ switch.source = some .switch ∧ switch.id = 6 ∧
      switch.text.textOrEmpty = "x % 3" := by
  obtain ⟨-, h, -⟩ := drawn_quotedBody
  obtain ⟨test, rest, hdecisions, htest, hrest⟩ := map_eq_cons_iff.mp h
  obtain ⟨switch, rest, rfl, hswitch, hnil⟩ := map_eq_cons_iff.mp hrest
  obtain rfl := map_eq_nil_iff.mp hnil
  simp only [Prod.mk.injEq] at htest hswitch
  exact ⟨test, switch, hdecisions, htest.2.1, hswitch.2.1, hswitch.1, hswitch.2.2⟩

theorem condition_quotedBody {b : Branch} (hb : b ∈ (drawn .null quotedBody).branches) :
    (b.id, b.condition) ∈ [(0, "c == '('"), (1, negate "c == '('"), (2, "x % 3 == 1"),
      (3, negate "x % 3 == 1")] := by
  obtain ⟨-, -, h, -⟩ := drawn_quotedBody
  exact h ▸ mem_map_of_mem hb

theorem texts_quotedBody :
    (Balanced "c == '('" ∧ Balanced (negate "c == '('") ∧
      Balanced "x % 3 == 1") ∧
    parse "c == '('" = .ok (.binary .eq (.name "c") (.int 40)) ∧
    parse "x % 3" = .ok (.binary .rem (.name "x") (.int 3)) ∧
    parse "1" = .ok (.int 1) ∧
    parse "x % 3 == 1" = .ok (.binary .eq (.binary .rem (.name "x") (.int 3)) (.int 1)) :=
  ⟨by decide +kernel, eq_ok_of_toOption (by decide +kernel), eq_ok_of_toOption (by decide +kernel),
    eq_ok_of_toOption (by decide +kernel), eq_ok_of_toOption (by decide +kernel)⟩

def integerScope : NameScope := ⟨fun _ => .int, .empty⟩

def sevens : InputValues ℚ := ⟨fun _ => 7, fun _ => 7, fun _ => true⟩

theorem truthIs_quotedBody :
    TruthIs integerScope sevens "c == '('" false ∧
      TruthIs integerScope sevens "x % 3 == 1" true := by
  obtain ⟨-, hquoted, -, -, hremainder⟩ := texts_quotedBody
  exact ⟨⟨_, hquoted, .bool false, rfl, rfl⟩, ⟨_, hremainder, .bool true, rfl, rfl⟩⟩

theorem exists_values_quotedBody {b : Branch} (hb : b ∈ (drawn .null quotedBody).branches) :
    ∃ e v, parse b.condition = .ok e ∧ e.evaluate integerScope sevens = .ok v := by
  obtain ⟨htest, hcase⟩ := truthIs_quotedBody
  have h : ∃ p, TruthIs integerScope sevens b.condition p := by
    have hmem := condition_quotedBody hb
    simp only [mem_cons, Prod.mk.injEq, not_mem_nil, or_false] at hmem
    rcases hmem with ⟨-, h⟩ | ⟨-, h⟩ | ⟨-, h⟩ | ⟨-, h⟩
    · exact ⟨_, h ▸ htest⟩
    · exact ⟨_, h ▸ htest.negate⟩
    · exact ⟨_, h ▸ hcase⟩
    · exact ⟨_, h ▸ hcase.negate⟩
  obtain ⟨_, e, he, v, hv, -⟩ := h
  exact ⟨e, v, he, hv⟩

theorem branch_conditions_split_inputs_sevens :
    ∃ test switch, (drawn .null quotedBody).graph.decisions = [test, switch] ∧
      test.source ≠ some .switch ∧ switch.source = some .switch ∧
      (∃ t f,
        ((drawn .null quotedBody).branches.filter fun b => b.decisionNode = test.id) = [t, f] ∧
        (Guard.Holds integerScope sevens t.condition ∧
            ¬Guard.Holds integerScope sevens f.condition ∨
          ¬Guard.Holds integerScope sevens t.condition ∧
            Guard.Holds integerScope sevens f.condition)) ∧
      ∃ b ∈ (drawn .null quotedBody).branches, b.decisionNode = switch.id ∧
        Guard.Holds integerScope sevens b.condition := by
  obtain ⟨test, switch, hdecisions, htest, hswitch, -⟩ := decisions_quotedBody
  have hif : test.source ≠ some .switch := by rw [htest]; decide
  refine ⟨test, switch, hdecisions, hif, hswitch, ?_, ?_⟩
  · exact (branch_conditions_split_inputs ofBody_quotedBody (hdecisions ▸ List.mem_cons_self)
      integerScope sevens fun b hb _ => exists_values_quotedBody hb).1 hif
  · obtain ⟨cases, default, hfilter, -, -, -, ⟨b, hb, hholds⟩, -⟩ :=
      (branch_conditions_split_inputs ofBody_quotedBody
        (hdecisions ▸ List.mem_cons_of_mem _ List.mem_cons_self) integerScope sevens
        fun b hb _ => exists_values_quotedBody hb).2 hswitch
    rw [← hfilter, List.mem_filter] at hb
    exact ⟨b, hb.1, of_decide_eq_true hb.2, hholds⟩

/-- The condition of a case puts the subject of the switch and the value of the case beside a bare
`==`.  It always parses where both of them do, and it is their comparison exactly if the subject
binds at least as tightly as `==` and the value more tightly. -/
theorem parse_case_condition_iff {function : Json} {body : Tree}
    (h : ofBody function body = .ok d) {n : FlowNode} (hn : n ∈ d.graph.decisions)
    (hswitch : n.source = some .switch) {b : Branch} (hb : b ∈ d.branches)
    (hat : b.decisionNode = n.id) (hcase : b.kind = .case) :
    ∃ subject value, n.text = .str subject ∧ b.caseValue = some value ∧
      b.condition = subject ++ " == " ++ value ∧
      ∀ l r, Guard.parse subject = .ok l → Guard.parse value = .ok r →
        (∃ e, Guard.parse b.condition = .ok e) ∧
          (Guard.parse b.condition = .ok (.binary .eq l r) ↔
            Guard.RendersAt 2 subject l ∧ Guard.RendersAt 3 value r) := by
  have hdecided : Decided d := ofBody_eq_ok h ▸ decided_drawn function body
  obtain ⟨hnode, hkind⟩ := List.mem_filter.mp hn
  have hsplits := hdecided.splits n hnode (of_decide_eq_true hkind)
  have hspec : b.spec ∈ d.outcomesAt n.id := by
    rw [outcomesAt_eq]
    exact List.mem_map_of_mem (List.mem_filter.mpr ⟨hb, decide_eq_true hat⟩)
  generalize d.outcomesAt n.id = specs at hsplits hspec
  cases hsplits with
  | twoWay hsource hne => exact absurd (Option.some.inj (hsource.symm.trans hswitch)) hne
  | @switch l cases line _ htext =>
    rcases List.mem_append.mp hspec with hspec | hspec
    · obtain ⟨x, -, hx⟩ := List.mem_map.mp hspec
      have hvalue : b.caseValue = some x.2 := (congrArg BranchSpec.caseValue hx).symm
      have hcondition : b.condition = subjectOf l ++ " == " ++ x.2 :=
        (congrArg BranchSpec.condition hx).symm
      refine ⟨subjectOf l, x.2, htext, hvalue, hcondition, fun e r he hr => ?_⟩
      rw [hcondition]
      exact Guard.parse_operator_iff he hr .eq
    · have hdefault : b.kind = .default :=
        congrArg BranchSpec.kind (List.mem_singleton.mp hspec)
      rw [hcase] at hdefault
      cases hdefault

theorem parse_case_condition_iff_remainder :
    ∃ n ∈ (drawn .null quotedBody).graph.decisions, ∃ b ∈ (drawn .null quotedBody).branches,
      n.source = some .switch ∧ b.decisionNode = n.id ∧ b.kind = .case ∧ n.text = .str "x % 3" ∧
        b.caseValue = some "1" ∧ Guard.RendersAt 2 "x % 3" (.binary .rem (.name "x") (.int 3)) ∧
        Guard.RendersAt 3 "1" (.int 1) := by
  obtain ⟨-, -, -, ⟨b, hb, hat, hkind, hvalue⟩, -⟩ := drawn_quotedBody
  obtain ⟨test, n, hdecisions, -, hswitch, hid, htext⟩ := decisions_quotedBody
  obtain ⟨-, -, hleft, hright, hremainder⟩ := texts_quotedBody
  have hn : n ∈ (drawn .null quotedBody).graph.decisions :=
    hdecisions ▸ List.mem_cons_of_mem _ List.mem_cons_self
  rw [← hid] at hat
  refine ⟨n, hn, b, hb, hswitch, hat, hkind, ?_⟩
  obtain ⟨subject, value, hsubject, hvalue', hcondition, hreads⟩ :=
    parse_case_condition_iff ofBody_quotedBody hn hswitch hb hat hkind
  obtain rfl : subject = "x % 3" := by rw [hsubject] at htext; exact htext
  obtain rfl : value = "1" := Option.some.inj (hvalue'.symm.trans hvalue)
  have hparse : Guard.parse b.condition =
      .ok (.binary .eq (.binary .rem (.name "x") (.int 3)) (.int 1)) := by
    rw [hcondition]
    exact hremainder
  exact ⟨hsubject, hvalue, (hreads _ _ hleft hright).2.mp hparse⟩

/-- A disjunction as the subject of a switch is torn apart: the condition of the case compares only
its right side. -/
theorem parse_case_condition_disjunction :
    ofBody .null (switchOn "a || b" "5") = .ok (drawn .null (switchOn "a || b" "5")) ∧
      Guard.parse "a || b" = .ok (.binary .or (.name "a") (.name "b")) ∧
      Guard.parse "5" = .ok (.int 5) ∧
      ∃ b ∈ (drawn .null (switchOn "a || b" "5")).branches,
        b.kind = .case ∧ b.caseValue = some "5" ∧
        Guard.parse b.condition =
          .ok (.binary .or (.name "a") (.binary .eq (.name "b") (.int 5))) ∧
        Guard.parse b.condition ≠
          .ok (.binary .eq (.binary .or (.name "a") (.name "b")) (.int 5)) := by
  refine ⟨ofBody_of_isOk (by decide +kernel), eq_ok_of_toOption (by decide +kernel),
    eq_ok_of_toOption (by decide +kernel), ?_⟩
  have hcase : ∃ b ∈ (drawn .null (switchOn "a || b" "5")).branches,
      b.kind = .case ∧ b.caseValue = some "5" ∧ b.condition = "a || b == 5" := by
    decide +kernel
  obtain ⟨b, hb, hkind, hvalue, hcondition⟩ := hcase
  have hparse : Guard.parse "a || b == 5" =
      .ok (.binary .or (.name "a") (.binary .eq (.name "b") (.int 5))) :=
    eq_ok_of_toOption (by decide +kernel)
  rw [← hcondition] at hparse
  refine ⟨b, hb, hkind, hvalue, hparse, ?_⟩
  rw [hparse]
  nofun

end Decisions

/-- **Negations and conjunctions of texts are compositional and fail closed.**  The negation of a
balanced text is read exactly if the text is, as its negation.  The conjunction of balanced texts
that are not blank is read exactly if all of them are, as their conjunction from the left.  So the
condition of a path that takes a branch holds exactly if the conditions of all its branches hold,
and it is no guard at all if one of them is none. -/
theorem negation_conjunction_compositional :
    (∀ (t : String) (e : Expr), Guard.Balanced t →
      (Guard.parse (Guard.negate t) = .ok e ↔
        ∃ e', Guard.parse t = .ok e' ∧ e = .unary .not e')) ∧
    (∀ (t : String) (ts : List String) (e : Expr),
      (∀ u ∈ t :: ts, Text.isAllBlank u = false ∧ Guard.Balanced u) →
      (Guard.parse (Guard.conjoin (t :: ts)) = .ok e ↔
        ∃ e₁ es, (t :: ts).mapM Guard.parse = .ok (e₁ :: es) ∧ e = es.foldl (.binary .and) e₁)) ∧
    ∀ (function : Json) (body : Tree) (d : Draft), ofBody function body = .ok d →
      ∀ (limit : Option Nat), ∀ p ∈ d.graph.paths d.branches limit, p.branches ≠ [] →
      (∀ b ∈ d.branches, b.id ∈ p.branches → Guard.Balanced b.condition) →
      ((∃ e, Guard.parse p.condition = .ok e) ↔
        ∀ b ∈ d.branches, b.id ∈ p.branches → ∃ e, Guard.parse b.condition = .ok e) ∧
      ∀ (K : Type) [Field K] [LinearOrder K] (scope : NameScope) (a : InputValues K),
        Guard.Holds scope a p.condition ↔
          ∀ b ∈ d.branches, b.id ∈ p.branches → Guard.Holds scope a b.condition := by
  refine ⟨fun t e ht => Guard.parse_negate_eq_ok_iff ht, fun t ts e h => ?_, ?_⟩
  · exact Guard.parse_conjoin_eq_ok_iff (fun u hu => (h u hu).1) fun u hu => (h u hu).2
  · intro function body d h limit p hp hne hbalanced
    have hd : d.Complete := ofBody_eq_ok h ▸ complete_drawn function body
    have hdecided : Decided d := ofBody_eq_ok h ▸ decided_drawn function body
    obtain ⟨t, ts, hcondition, hblank, hmem⟩ := hd.exists_conjuncts hdecided hp hne
    have hall : ∀ P : String → Prop,
        (∀ u ∈ t :: ts, P u) ↔ ∀ b ∈ d.branches, b.id ∈ p.branches → P b.condition := by
      intro P
      constructor
      · exact fun hP b hb hi => hP _ ((hmem _).mpr ⟨b, hb, hi, rfl⟩)
      · intro hP u hu
        obtain ⟨b, hb, hi, rfl⟩ := (hmem u).mp hu
        exact hP b hb hi
    have hts : ∀ u ∈ t :: ts, Guard.Balanced u := (hall _).mpr hbalanced
    rw [hcondition]
    constructor
    · exact (Guard.exists_parse_conjoin_iff hblank hts).trans (hall _)
    · intro K _ _ scope a
      exact (Guard.holds_conjoin_iff hblank hts).trans (hall _)

theorem negation_conjunction_compositional_quoted :
    Guard.Balanced "c == '('" ∧ Guard.Balanced "x % 3 == 1" ∧
      Guard.parse (Guard.negate "c == '('") =
        .ok (.unary .not (.binary .eq (.name "c") (.int 40))) ∧
      Guard.parse (Guard.conjoin ["c == '('", "x % 3 == 1"]) =
        .ok (.binary .and (.binary .eq (.name "c") (.int 40))
          (.binary .eq (.binary .rem (.name "x") (.int 3)) (.int 1))) ∧
      ∃ p ∈ (drawn .null quotedBody).graph.paths (drawn .null quotedBody).branches none,
        p.branches = [1, 2] ∧ Guard.Holds integerScope sevens p.condition := by
  obtain ⟨⟨hquoted, hnegated, hremainder⟩, hparse, -, -, hparse'⟩ := texts_quotedBody
  obtain ⟨hnegation, hconjunction, hpaths⟩ := negation_conjunction_compositional
  refine ⟨hquoted, hremainder, (hnegation _ _ hquoted).mpr ⟨_, hparse, rfl⟩, ?_, ?_⟩
  · refine (hconjunction _ _ _ ?_).mpr
      ⟨_, [.binary .eq (.binary .rem (.name "x") (.int 3)) (.int 1)], ?_, rfl⟩
    · simp only [List.forall_mem_cons]
      exact ⟨⟨by decide, hquoted⟩, ⟨by decide, hremainder⟩, nofun⟩
    · rw [mapM_cons, mapM_cons, hparse, hparse']
      rfl
  · obtain ⟨-, -, -, -, p, hp, hbranches⟩ := drawn_quotedBody
    -- The second branch is the negation of the test, the third the case of the switch.
    have htexts : ∀ b ∈ (drawn .null quotedBody).branches, b.id ∈ p.branches →
        b.condition = Guard.negate "c == '('" ∨ b.condition = "x % 3 == 1" := by
      intro b hb hid
      rw [hbranches] at hid
      have hmem := condition_quotedBody hb
      simp only [mem_cons, Prod.mk.injEq, not_mem_nil, or_false] at hmem hid
      rcases hmem with ⟨h, -⟩ | ⟨-, h⟩ | ⟨-, h⟩ | ⟨h, -⟩
      · exact absurd hid (by omega)
      · exact .inl h
      · exact .inr h
      · exact absurd hid (by omega)
    refine ⟨p, hp, hbranches, ((hpaths .null quotedBody _ ofBody_quotedBody none p hp
      (by rw [hbranches]; nofun) fun b hb hid => ?_).2 ℚ integerScope sevens).mpr
        fun b hb hid => ?_⟩
    · rcases htexts b hb hid with hcondition | hcondition
      · exact hcondition ▸ hnegated
      · exact hcondition ▸ hremainder
    · obtain ⟨htest, hcase⟩ := truthIs_quotedBody
      rcases htexts b hb hid with hcondition | hcondition
      · rw [hcondition]
        exact htest.negate.holds_iff.mpr rfl
      · rw [hcondition, hcase.holds_iff]

end Draft

end Branchwise
