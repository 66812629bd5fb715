import Branchwise.Proofs.Alias.Chains
import Branchwise.Proofs.Declarations.Typed
import Branchwise.Proofs.Engine.Literals

/-!
# Where types lead

A type is followed from name to name until the first pointer, base type, tagged name or name that
stands for nothing.  A walk that meets a name again never stops, and one that never stops meets a
name again.  Array extents in ASCII can be read on the way, up to the largest number of digits.
-/

namespace Branchwise

open List Spelling Text

/-! ## Reading extents -/

namespace Spelling

/-- The extents in a text are in ASCII, and those that are numbers have no more digits than an
integer may. -/
def HasPlainExtents (t : String) : Prop :=
  ∀ word ∈ (takeExtents t.length t.toList).2,
    (∀ c ∈ word, c.toNat < 128) ∧ (word.all isDigit → word.length ≤ Number.maxDecimalDigits)

theorem isDigit_of_isAnyDigit {c : Char} (hc : c.toNat < 128) (h : isAnyDigit c) :
    isDigit c := by
  have hother : inRanges otherDigits c.toNat = false := by
    simp only [inRanges, otherDigits, any_cons, any_nil]
    simp
    omega
  rwa [isAnyDigit, hother, Bool.or_false] at h

theorem exists_lengthOf {word : List Char} (hascii : ∀ c ∈ word, c.toNat < 128)
    (hlength : word.all isDigit → word.length ≤ Number.maxDecimalDigits) :
    ∃ n, lengthOf word = .ok n := by
  unfold lengthOf
  split
  · exact ⟨0, rfl⟩
  · rename_i hdigits
    simp only [Bool.or_eq_true, List.isEmpty_iff, Bool.not_eq_true', not_or, Bool.not_eq_false,
      all_eq_true] at hdigits
    have hall : ∀ c ∈ word, isDigit c := fun c hc =>
      isDigit_of_isAnyDigit (hascii c hc) (hdigits.2 c hc)
    rw [Json.toInt, String.toList_ofList, Number.decimalDigits?_of_digits hdigits.1 hall]
    dsimp only
    rw [if_neg (Nat.not_lt.mpr (hlength (all_eq_true.mpr hall)))]
    exact ⟨_, rfl⟩

theorem exists_parts {t : String} (h : HasPlainExtents t) : ∃ p, parts t = .ok p := by
  obtain ⟨dims, hdims⟩ := exists_mapM_eq_ok (f := lengthOf) fun word hword =>
    exists_lengthOf (h word hword).1 (h word hword).2
  unfold parts
  rcases hpair : takeExtents t.length t.toList with ⟨kept, words⟩
  rw [hpair] at hdims
  exact ⟨_, by dsimp only; rw [hdims]; rfl⟩

def longRow (n : Nat) : String := String.ofList ('A' :: '[' :: (replicate n '1' ++ [']']))

theorem takeExtents_longRow {n : Nat} (hn : n ≠ 0) :
    takeExtents (longRow n).length (longRow n).toList = (['A'], [replicate n '1']) := by
  have hall : ∀ c ∈ replicate n '1', isWord c := fun c hc => by
    rw [eq_of_mem_replicate hc]; rfl
  have hblank : (replicate n '1' ++ [']']).dropWhile isBlank = replicate n '1' ++ [']'] := by
    obtain ⟨n, rfl⟩ := Nat.exists_eq_succ_of_ne_zero hn
    rfl
  have hextent : extent? (replicate n '1' ++ [']']) = some (replicate n '1', []) := by
    rw [extent?, hblank, takeWhile_append_of_pos hall, dropWhile_append_of_pos hall]
    simp [show isWord ']' = false from rfl, show isBlank ']' = false from rfl]
  rw [longRow, String.length_ofList, String.toList_ofList, length_cons, length_cons, takeExtents,
    if_neg (by decide), takeExtents, if_pos rfl, hextent, length_append]
  rfl

theorem parts_longRow {n : Nat} (hn : Number.maxDecimalDigits < n) :
    parts (longRow n) = .error (.longInteger (some n)) := by
  have hne : n ≠ 0 := Nat.ne_zero_of_lt hn
  have hdigits : Number.decimalDigits? (replicate n '1') = some (false, replicate n '1') := by
    refine Number.decimalDigits?_of_digits (by simp [hne]) fun c hc => ?_
    rw [eq_of_mem_replicate hc]
    decide
  have hall : ((replicate n '1').isEmpty || !(replicate n '1').all isAnyDigit) = false := by
    simp [hne, show isAnyDigit '1' from rfl]
  have hlength : lengthOf (replicate n '1') = .error (.longInteger (some n)) := by
    rw [lengthOf, hall, Json.toInt, String.toList_ofList, hdigits]
    simp [hn]
    rfl
  rw [parts, takeExtents_longRow hne]
  simp only [mapM_cons, hlength]
  rfl

end Spelling

/-! ## Walks along aliases -/

namespace Declarations

variable (d : Declarations) (aliases : Option AliasTable)

/-- Where a walk goes from a name: to what it stands for, unless it is a pointer, a base type or a
tagged name. -/
def onward? (p : Parts) : Option Parts :=
  if p.stars ≠ 0 ∨ (base? p.core).isSome ∨ (Spelling.tagged? p.core).isSome
  then none
  else ((d.aliasTarget? aliases p.core).toOption.join).bind fun t => (parts t).toOption

def aliasNames : List Json :=
  d.typedefs.map AliasDecl.name ++ aliases.elim [] fun t => t.entries.keys

variable {d aliases} {start p q : Parts} {ps : List Parts} {r : ResolvedType}

theorem onward?_congr (hp : (d.onward? aliases p).isSome) (hcore : q.core = p.core)
    (hstars : q.stars = 0) : d.onward? aliases q = d.onward? aliases p := by
  unfold onward? at hp ⊢
  split at hp
  · cases hp
  · rename_i hgo
    rw [not_or, ne_eq, not_not] at hgo
    rw [hcore, hstars, hgo.1]

theorem mem_aliasNames (hd : d.InStep) (h : (d.onward? aliases p).isSome) :
    .str p.core ∈ d.aliasNames aliases := by
  unfold onward? at h
  split at h
  · cases h
  obtain ⟨q, hq⟩ := Option.isSome_iff_exists.mp h
  obtain ⟨t, ht, -⟩ := Option.bind_eq_some_iff.mp hq
  have ht := eq_ok_of_toOption (Option.join_eq_some_iff.mp ht)
  unfold aliasTarget? at ht
  split at ht
  · rename_i a ha
    unfold typedef? at ha
    split at ha
    · rename_i hfind
      cases ha
      have hmem : Entity.typedef a ∈ d.ofKind .typedef := hd.mem_ofKind (mem_of_find? hfind)
      exact mem_append_left _ (mem_map.mpr ⟨a, mem_filterMap.mpr ⟨_, hmem, rfl⟩,
        (Json.isolated_str _ _).1.mp (hd.name_of_find? hfind)⟩)
    · cases ha
  · obtain ⟨table, rfl, htable⟩ := Option.bind_eq_some_iff.mp (Except.ok.inj ht)
    exact mem_append_right _ (AliasTable.mem_keys_of_hop (by rw [AliasTable.hop, htable]; rfl))

/-- What is kept of a walk: the names and the extents in order, and where it stands. -/
structure Keeps (r : ResolvedType) (p : Parts) (ps : List Parts) : Prop where
  core_eq : r.core = p.core
  pointerDepth_eq : r.pointerDepth = p.stars
  chain_eq : r.chain = (p :: ps).reverse.map Parts.core
  dims_eq : r.dims = (p :: ps).reverse.flatMap Parts.dims

theorem keeps_resolvedTo {e : Option Entity} {r' : ResolvedType} (h : resolvedTo r e = .ok r')
    (hr : Keeps r p ps) : Keeps r' p ps := by
  unfold resolvedTo at h
  split at h
  · cases h
    exact ⟨hr.core_eq, hr.pointerDepth_eq, hr.chain_eq, hr.dims_eq⟩
  · obtain ⟨_, -, h⟩ := bind_eq_ok h
    cases h
    exact ⟨hr.core_eq, hr.pointerDepth_eq, hr.chain_eq, hr.dims_eq⟩
  · cases h
    exact hr

/-- How a walk ends, however many steps it is allowed: at a name that does not lead on, or never. -/
def EndsWalk (d : Declarations) (aliases : Option AliasTable) (start : Parts)
    (x : Except Error ResolvedType) : Prop :=
  (∃ r p ps, x = .ok r ∧ Walked (d.onward? aliases) start (p :: ps) ∧
    (ps.map Parts.core).Nodup ∧ d.onward? aliases p = none ∧ Keeps r p ps) ∨
  Endless (d.onward? aliases) start ∧ ∃ chain, x = .error (.aliasCycle chain)

theorem exists_endsWalk_resolveLoop (hd : d.IsTyped)
    (hplain : ∀ name t, d.aliasTarget? aliases name = .ok (some t) → HasPlainExtents t)
    (fuel : Nat) (h : Walked (d.onward? aliases) start (p :: ps))
    (hnodup : (ps.map Parts.core).Nodup) (hr : Keeps r p ps)
    (hfuel : (d.aliasNames aliases).length < fuel + ps.length) :
    ∃ x, d.EndsWalk aliases start x ∧
      ∀ more, d.resolveLoop aliases (fuel + more) (ps.map Parts.core) r = x := by
  induction fuel generalizing p ps r with
  | zero =>
    have hkeys := hnodup.map fun _ _ => Json.str.inj
    rw [map_map] at hkeys
    have hle := h.length_le hkeys fun _ => mem_aliasNames hd.toInStep
    omega
  | succ fuel ih =>
    obtain ⟨text, chain, core, depth, dims, base, agg, enum⟩ := r
    obtain ⟨rfl, rfl, hchain, hdims⟩ := hr
    dsimp only at hchain hdims
    -- A walk that stops does so for every number of steps.
    have hstop {x : Except Error ResolvedType} (hstops : d.onward? aliases p = none)
        (hx : ∃ r', x = .ok r' ∧ Keeps r' p ps) : d.EndsWalk aliases start x := by
      obtain ⟨r', rfl, hr'⟩ := hx
      exact .inl ⟨r', p, ps, rfl, h, hnodup, hstops, hr'⟩
    have hnamed (name : Json) (tag : Option EntityKind) : ∃ r', resolvedTo
        ⟨text, chain, p.core, p.stars, dims, base, agg, enum⟩ (d.tagged? name tag) = .ok r' ∧
          Keeps r' p ps := by
      obtain ⟨r', hr'⟩ := exists_resolvedTo hd _ name tag
      exact ⟨r', hr', keeps_resolvedTo hr' ⟨rfl, rfl, hchain, hdims⟩⟩
    simp only [Nat.add_right_comm fuel 1, resolveLoop, ResolvedType.isPointer]
    by_cases hstars : p.stars = 0
    swap
    · simp only [decide_eq_true (Nat.pos_of_ne_zero hstars), if_true]
      refine ⟨_, ?_, fun _ => rfl⟩
      exact hstop (if_pos (.inl hstars)) ⟨_, rfl, rfl, rfl, hchain, hdims⟩
    have hvalue : decide (0 < p.stars) = false := by simp [hstars]
    simp only [hvalue, Bool.false_eq_true, if_false]
    cases hb : base? p.core with
    | some b =>
      refine ⟨_, ?_, fun _ => rfl⟩
      exact hstop (if_pos (.inr (.inl (by rw [hb]; rfl)))) ⟨_, rfl, rfl, rfl, hchain, hdims⟩
    | none =>
      cases htag : Spelling.tagged? p.core with
      | some tag =>
        exact ⟨_, hstop (if_pos (.inr (.inr (by rw [htag]; rfl)))) (hnamed _ _), fun _ => rfl⟩
      | none =>
        obtain ⟨target, htarget⟩ : ∃ o, d.aliasTarget? aliases p.core = .ok o :=
          exists_aliasTarget? hd p.core
        have hgo : d.onward? aliases p = target.bind fun t => (parts t).toOption := by
          rw [onward?, htarget, hb, htag, hstars, if_neg (by simp)]
          rfl
        by_cases hseen : p.core ∈ ps.map Parts.core
        · simp only [contains_iff_mem.mpr hseen, if_true]
          obtain ⟨q, hq, hcore⟩ := mem_map.mp hseen
          obtain ⟨q', -, hq'⟩ := h.exists_step q hq
          refine ⟨_, .inr ⟨?_, chain, rfl⟩, fun _ => rfl⟩
          exact h.endless hq (onward?_congr (by rw [hq']; rfl) hcore.symm hstars)
        · simp only [if_neg (mt contains_iff_mem.mp hseen), htarget, ok_bind]
          cases target with
          | none => exact ⟨_, hstop hgo (hnamed _ _), fun _ => rfl⟩
          | some t =>
            obtain ⟨q, hq⟩ := exists_parts (hplain _ t htarget)
            rw [Option.bind_some, hq] at hgo
            simp only [hq, ok_bind]
            refine ih (h.cons hgo) (nodup_cons.mpr ⟨hseen, hnodup⟩) ⟨rfl, rfl, ?_, ?_⟩ ?_
            · simp [hchain]
            · simp [hdims]
            · rw [length_cons]
              omega

/-- **A type is followed to its end.**  Where array extents are plain, following a type fails
exactly if its walk never stops, and allowing more steps changes nothing.  Otherwise it gives the
names that were met, each the core of what the one before stands for and all but the last different,
the stars of the last, and the extents of all in order. -/
theorem resolve_fails_iff_endless (hd : d.IsTyped) {spelling : String}
    (hspelling : HasPlainExtents (normalize spelling))
    (htargets : ∀ name t, d.aliasTarget? aliases name = .ok (some t) → HasPlainExtents t) :
    ∃ first, parts (normalize spelling) = .ok first ∧
      ((∃ chain, d.resolve aliases spelling = .error (.aliasCycle chain)) ↔
        Endless (d.onward? aliases) first) ∧
      (¬Endless (d.onward? aliases) first → ∃ r, d.resolve aliases spelling = .ok r) ∧
      (∀ more, d.resolveLoop aliases
          (d.typedefs.length + ((aliases.map AliasTable.size).getD 0) + 2 + more) []
          ⟨Spelling.normalize spelling, [first.core], first.core, first.stars, first.dims, none,
            none, none⟩ = d.resolve aliases spelling) ∧
      ∀ r, d.resolve aliases spelling = .ok r → ∃ before last,
        (before ++ [last]).head? = some first ∧
        ((before ++ [last]).IsChain fun p q => d.onward? aliases p = some q) ∧
        d.onward? aliases last = none ∧ (before.map Parts.core).Nodup ∧
        r.chain = (before ++ [last]).map Parts.core ∧ r.core = last.core ∧
        r.pointerDepth = last.stars ∧ r.dims = (before ++ [last]).flatMap Parts.dims := by
  obtain ⟨first, hfirst⟩ := exists_parts hspelling
  have hnames : (d.aliasNames aliases).length
      = d.typedefs.length + (aliases.map AliasTable.size).getD 0 := by
    cases aliases <;> simp [aliasNames, AliasTable.size, Table.size, Table.keys]
  obtain ⟨x, hends, hx⟩ := exists_endsWalk_resolveLoop hd htargets
    (d.typedefs.length + (aliases.map AliasTable.size).getD 0 + 2)
    (r := ⟨Spelling.normalize spelling, [first.core], first.core, first.stars, first.dims, none,
      none, none⟩) (.singleton first) nodup_nil ⟨rfl, rfl, rfl, by simp⟩ (by rw [hnames]; simp)
  have hresolve : d.resolve aliases spelling = x := by
    unfold resolve
    dsimp only
    rw [hfirst]
    exact hx 0
  refine ⟨first, hfirst, ?_, ?_, fun more => (hx more).trans hresolve.symm, fun r hr => ?_⟩
  · rw [hresolve]
    rcases hends with ⟨r, p, ps, rfl, h, -, hstops, -⟩ | ⟨hendless, chain, rfl⟩
    · refine iff_of_false ?_ (h.not_endless hstops)
      rintro ⟨chain, hchain⟩
      cases hchain
    · exact iff_of_true ⟨chain, rfl⟩ hendless
  · intro hnot
    rcases hends with ⟨r, _, _, rfl, -⟩ | ⟨hendless, -⟩
    · exact ⟨r, hresolve⟩
    · exact absurd hendless hnot
  · rcases hends with ⟨r', p, ps, rfl, h, hnodup, hstops, hkeeps⟩ | ⟨-, chain, rfl⟩
    · cases hr.symm.trans hresolve
      have hreverse : ps.reverse ++ [p] = (p :: ps).reverse := reverse_cons.symm
      refine ⟨ps.reverse, p, ?_, ?_, hstops, ?_, ?_, hkeeps.core_eq, hkeeps.pointerDepth_eq, ?_⟩
      · rw [hreverse, head?_reverse]
        exact h.getLast?_eq
      · rw [hreverse]
        exact isChain_reverse.mpr h.linked
      · rw [map_reverse]
        exact nodup_reverse.mpr hnodup
      · rw [hreverse, hkeeps.chain_eq]
      · rw [hreverse, hkeeps.dims_eq]
    · cases hr.symm.trans hresolve

/-! ### An alias for a row, and one with a long extent -/

def oneAlias (name type : String) : AliasTable :=
  ⟨.lp64, ⟨[(.str name, ⟨type, .str "Source", .null, .null⟩)]⟩, .empty⟩

theorem hasPlainExtents_of_digit {t : String} {c : Char} (hc : c.toNat < 128)
    (h : (takeExtents t.length t.toList).2 = [[c]]) : HasPlainExtents t := by
  unfold HasPlainExtents
  rw [h]
  simp [hc, Number.maxDecimalDigits]

theorem resolve_fails_iff_endless_row :
    ¬Endless ((empty .lp64).onward? (some (oneAlias "row" "int[3]"))) ⟨"row", 0, [2]⟩ := by
  have htyped : (empty .lp64).IsTyped :=
    ⟨inStep_empty _, ⟨rfl, rfl, rfl, rfl⟩, fun _ h => absurd h not_mem_nil,
      fun _ h => absurd h not_mem_nil⟩
  have hspelling : HasPlainExtents (normalize "row[2]") :=
    hasPlainExtents_of_digit (c := '2') (by decide) (by decide +kernel)
  have htargets (name t : String)
      (ht : (empty .lp64).aliasTarget? (some (oneAlias "row" "int[3]")) name = .ok (some t)) :
      HasPlainExtents t := by
    obtain ⟨e, he, rfl⟩ := Option.map_eq_some_iff.mp (Except.ok.inj ht)
    cases mem_singleton.mp (Table.mem_values_of_get? he)
    exact hasPlainExtents_of_digit (c := '3') (by decide) (by decide +kernel)
  obtain ⟨first, hfirst, hiff, -⟩ := resolve_fails_iff_endless htyped hspelling htargets
  have hrow : parts (normalize "row[2]") = .ok ⟨"row", 0, [2]⟩ :=
    eq_ok_of_toOption (by decide +kernel)
  have hok : ((empty .lp64).resolve (some (oneAlias "row" "int[3]")) "row[2]").toOption.isSome := by
    decide +kernel
  rw [Except.ok.inj (hrow.symm.trans hfirst)]
  intro hendless
  obtain ⟨chain, h⟩ := hiff.mpr hendless
  rw [h] at hok
  cases hok

theorem resolve_longRow {n : Nat} (hn : Number.maxDecimalDigits < n) :
    (empty .lp64).resolve (some (oneAlias "A" (longRow n))) "A"
      = .error (.longInteger (some n)) := by
  have hfirst : parts (normalize "A") = .ok ⟨"A", 0, []⟩ :=
    eq_ok_of_toOption (by decide +kernel)
  have hbase : base? "A" = none := by decide +kernel
  have htag : Spelling.tagged? "A" = none := by decide +kernel
  have htarget : (empty .lp64).aliasTarget? (some (oneAlias "A" (longRow n))) "A"
      = .ok (some (longRow n)) := rfl
  unfold resolve
  dsimp only
  rw [hfirst, ok_bind, resolveLoop]
  simp only [ResolvedType.isPointer, Nat.lt_irrefl, decide_false, Bool.false_eq_true, if_false,
    hbase, htag, contains_nil, htarget, ok_bind, parts_longRow hn]
  rfl

/-- A name that stands for an array of itself leads on without end, but its extent has one digit too
many to be read. -/
theorem resolve_long_extent :
    takeExtents (longRow 4301).length (longRow 4301).toList
      = (['A'], [replicate 4301 '1']) ∧
    (empty .lp64).aliasTarget? (some (oneAlias "A" (longRow 4301))) "A"
      = .ok (some (longRow 4301)) ∧
    ∀ chain, (empty .lp64).resolve (some (oneAlias "A" (longRow 4301))) "A"
      ≠ .error (.aliasCycle chain) := by
  refine ⟨Spelling.takeExtents_longRow (by decide), rfl, fun chain h => ?_⟩
  cases h.symm.trans (resolve_longRow (by decide))

end Declarations

end Branchwise
