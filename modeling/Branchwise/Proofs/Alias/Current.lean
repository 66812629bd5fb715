import Branchwise.Alias.Table
import Branchwise.Proofs.Data.Outcome
import Branchwise.Proofs.Declarations.Identity
import Branchwise.Proofs.Domain.Intersection
import Branchwise.Proofs.Number.Shortest

/-!
# Kept descriptions are current

A description rests on a whole chain of aliases, so every change of a table forgets all that are
kept.  `Current` says that what is kept is what would be derived now.  Every operation on a table
keeps it.
-/

namespace Branchwise

/-! ## Keys -/

namespace Json

theorem isVoid_ofScalar (x : Scalar) : (ofScalar x).isVoid = decide (x.value? = some (.fin 0)) := by
  cases x with
  | bool b => cases b <;> rfl
  | int n => simp [ofScalar, isVoid, Scalar.value?, beq_eq_decide]
  | real x =>
    cases x with
    | finite negative m e =>
      have hpow : Binary64.pow2 e ≠ 0 := by
        rw [Binary64.pow2_eq_zpow]
        positivity
      cases negative <;>
        simp [ofScalar, isVoid, Scalar.isTruthy, Scalar.value?, hpow, bne, beq_eq_decide]
    | infinite negative => cases negative <;> rfl
    | nan tag => rfl

theorem spelling_congr {j k : Json} (hj : j.isKey) (hk : k.isKey)
    (h : j == k) : j.spelling = k.spelling := by
  have hmark := (beq_iff_mark hj hk).mp h
  rcases cases_of_isKey hj with rfl | ⟨s, rfl⟩ | ⟨x, rfl⟩ <;>
    rcases cases_of_isKey hk with rfl | ⟨t, rfl⟩ | ⟨y, rfl⟩
  case inl.inl => rfl
  case inl.inr.inl | inr.inl.inl => simp [mark] at hmark
  case inl.inr.inr => exact absurd hmark.symm (mark_ofScalar_ne_null y)
  case inr.inl.inr.inl =>
    obtain rfl : s = t := by simpa [mark] using hmark
    rfl
  case inr.inl.inr.inr => exact absurd hmark.symm (mark_ofScalar_ne_str y s)
  case inr.inr.inl => exact absurd hmark (mark_ofScalar_ne_null x)
  case inr.inr.inr.inl => exact absurd hmark (mark_ofScalar_ne_str x t)
  case inr.inr.inr.inr =>
    have hspelling (z : Scalar) : (ofScalar z).spelling =
        if (ofScalar z).isVoid then .ok "" else .error .mistyped := by cases z <;> rfl
    rw [mark_ofScalar, mark_ofScalar, Prod.mk.injEq, Prod.mk.injEq] at hmark
    rw [hspelling, hspelling, isVoid_ofScalar, isVoid_ofScalar, hmark.2.1]

theorem beq_congr {i j k : Json} (hi : i.isKey) (hj : j.isKey) (hk : k.isKey)
    (h : j == k) : (i == j) = (i == k) := by
  rw [Bool.eq_iff_iff, beq_iff_mark hi hj, beq_iff_mark hi hk, (beq_iff_mark hj hk).mp h]

end Json

theorem Table.get?_congr {α : Type} {t : Table Json α} (ht : ∀ k ∈ t.keys, k.isKey)
    {j k : Json} (hj : j.isKey) (hk : k.isKey) (h : j == k) :
    t.get? j = t.get? k := by
  unfold get?
  congr 1
  refine List.find?_congr fun e he => ?_
  exact Json.beq_congr (ht e.1 (List.mem_map_of_mem he)) hj hk h

def AliasMapping.named (m : AliasMapping) (name : Json) : AliasMapping :=
  { m with userType := name }

namespace AliasTable

variable {t t' : AliasTable} {j k name : Json}

def bare (t : AliasTable) : AliasTable := { t with memo := .empty }

/-! ## What a description depends on -/

theorem follow_eq (h : ∀ s, t'.resolve? (.str s) = t.resolve? (.str s)) (fuel : Nat)
    (current : String) (chain : List String) :
    t'.follow fuel current chain = t.follow fuel current chain := by
  induction fuel generalizing current chain with
  | zero => rfl
  | succ fuel ih =>
    unfold follow
    rw [h]
    split
    · rfl
    · rw [ih]

theorem chain_eq (hget : ∀ k, t'.entries.get? k = t.entries.get? k) (hsize : t'.size = t.size)
    (s : String) : t'.chain s = t.chain s := by
  have hresolve (s : String) : t'.resolve? (.str s) = t.resolve? (.str s) := by
    rw [resolve?, resolve?, hget]
  rw [chain, chain, hsize, follow_eq hresolve]

theorem derive_eq (habi : t'.abi = t.abi) (hchain : ∀ s, t'.chain s = t.chain s) (name : Json)
    (e : AliasEntry) : t'.derive name e = t.derive name e := by
  simp only [derive, baseOf?, hchain, habi]

theorem describe?_eq (habi : t'.abi = t.abi) (hget : ∀ k, t'.entries.get? k = t.entries.get? k)
    (hsize : t'.size = t.size) (name : Json) : t'.describe? name = t.describe? name := by
  simp only [describe?, hget, derive_eq habi (chain_eq hget hsize)]

theorem describe?_eq_of_entries (habi : t'.abi = t.abi) (hentries : t'.entries = t.entries)
    (name : Json) : t'.describe? name = t.describe? name :=
  describe?_eq habi (fun k => by rw [hentries]) (congrArg Table.size hentries) name

theorem derive_bare (name : Json) (e : AliasEntry) : t.bare.derive name e = t.derive name e :=
  derive_eq (by rfl) (chain_eq (fun _ => by rfl) (by rfl)) name e

theorem describe?_bare (name : Json) : t.bare.describe? name = t.describe? name :=
  describe?_eq_of_entries (by rfl) (by rfl) name

theorem derive_congr (h : j.spelling = k.spelling) (e : AliasEntry) :
    t.derive k e = (t.derive j e).map (·.named k) := by
  have hbase : t.baseOf? j = t.baseOf? k := by rw [baseOf?, baseOf?, h]
  have hnarrow (bounds : Option (Int × Int)) (size : Json) : (do
        let lower ← narrowed Json.larger (bounds.map Prod.fst) e.lower
        let upper ← narrowed Json.smaller (bounds.map Prod.snd) e.upper
        return ⟨k, e.target, lower, upper, size, e.source⟩ : Except Error AliasMapping) =
      Except.map (AliasMapping.named · k) (do
        let lower ← narrowed Json.larger (bounds.map Prod.fst) e.lower
        let upper ← narrowed Json.smaller (bounds.map Prod.snd) e.upper
        return ⟨j, e.target, lower, upper, size, e.source⟩ : Except Error AliasMapping) := by
    cases narrowed Json.larger (bounds.map Prod.fst) e.lower with
    | error x => rfl
    | ok lower => cases narrowed Json.smaller (bounds.map Prod.snd) e.upper <;> rfl
  unfold derive
  rw [hbase]
  rcases t.baseOf? k with x | _ | b
  · rfl
  · exact hnarrow none _
  · cases hbounds : b.bounds t.abi with
    | error x => simp only [ok_bind, hbounds]; rfl
    | ok bounds => simp only [ok_bind, hbounds]; exact hnarrow bounds _

theorem userType_of_describe? {m : AliasMapping} (h : t.describe? name = .ok (some m)) :
    m.userType = name := by
  unfold describe? at h
  split at h
  · rename_i e he
    obtain ⟨m', hderive, h⟩ := bind_eq_ok h
    cases h
    have hnamed := derive_congr (t := t) (j := name) rfl e
    rw [hderive] at hnamed
    exact congrArg AliasMapping.userType (Except.ok.inj hnamed)
  · cases h

/-! ## Current tables -/

structure Named (entries : Table Json AliasEntry) : Prop where
  isKey : ∀ k ∈ entries.keys, k.isKey
  apart : entries.keys.Pairwise fun a b => ¬(a == b)

theorem Named.put {entries : Table Json AliasEntry} (h : Named entries) (hname : name.isKey)
    (e : AliasEntry) : Named (entries.put name e) := by
  refine ⟨fun k hk => ?_, Table.pairwise_keys_put h.apart name e⟩
  rw [Table.keys_put] at hk
  split at hk
  · exact h.isKey k hk
  · rcases List.mem_append.mp hk with hk | hk
    · exact h.isKey k hk
    · exact List.mem_singleton.mp hk ▸ hname

structure Current (t : AliasTable) : Prop extends Named t.entries where
  kept : ∀ e ∈ t.memo.entries, e.1.isKey ∧ t.describe? e.1 = .ok (some e.2)

theorem Current.describe?_congr (h : t.Current) (hj : j.isKey) (hk : k.isKey)
    (hjk : j == k) : t.describe? k = (t.describe? j).map fun m => m.map (·.named k) := by
  unfold describe?
  rw [Table.get?_congr h.isKey hj hk hjk]
  cases t.entries.get? k with
  | none => rfl
  | some e =>
    dsimp only
    rw [derive_congr (Json.spelling_congr hj hk hjk)]
    cases t.derive j e <;> rfl

theorem Named.current (h : Named t.entries) (hmemo : t.memo = .empty) : t.Current :=
  ⟨h, fun e he => by rw [hmemo] at he; exact absurd he List.not_mem_nil⟩

theorem Current.put (h : t.Current) (hname : name.isKey) (e : AliasEntry) :
    (t.put name e).Current :=
  (h.toNamed.put hname e).current rfl

theorem current_empty (abi : Target) : (AliasTable.empty abi).Current :=
  Named.current ⟨nofun, .nil⟩ rfl

theorem current_standard (abi : Target) : (AliasTable.standard abi).Current := by
  refine Named.current (Named.put ?_ rfl _) rfl
  exact List.foldlRecOn standardAliases _ (⟨nofun, .nil⟩ : Named .empty) fun _ h p _ => h.put rfl _

theorem Current.unregister (h : t.Current) (name : Json) : (t.unregister name).2.Current := by
  have hsub : (t.entries.erase name).keys.Sublist t.entries.keys :=
    List.filter_sublist.map Prod.fst
  exact Named.current ⟨fun k hk => h.isKey k (hsub.subset hk), h.apart.sublist hsub⟩ rfl

theorem Current.registerText (h : t.Current) (text : String) (source : Json) :
    (t.registerText text source).2.Current := by
  have hbare : ({ t with memo := .empty } : AliasTable).Current :=
    Named.current (t := { t with memo := .empty }) h.toNamed rfl
  unfold AliasTable.registerText
  dsimp only
  rw [List.foldl_map]
  exact List.foldlRecOn (Alias.scan text) _ hbare fun _ hs d _ => hs.put rfl _

theorem register_eq_ok {user base source lower upper : Json}
    (h : t.register user base source lower upper = .ok t') :
    ∃ name target, name ≠ "" ∧ Spelling.normalize target ≠ "" ∧
      t' = t.put (.str name) ⟨Spelling.normalize target, source, lower, upper⟩ := by
  obtain ⟨name, -, h⟩ := bind_eq_ok h
  obtain ⟨target, -, h⟩ := bind_eq_ok h
  dsimp only at h
  split at h
  · cases h
  · rename_i hempty
    obtain ⟨hname, htarget⟩ := not_or.mp (by simpa using hempty)
    exact ⟨name, target, hname, htarget, (Except.ok.inj h).symm⟩

theorem Current.register (h : t.Current) {user base source lower upper : Json}
    (hregister : t.register user base source lower upper = .ok t') : t'.Current := by
  obtain ⟨name, target, -, -, rfl⟩ := register_eq_ok hregister
  exact h.put rfl _

theorem Current.ofJson {abi : Target} (h : AliasTable.ofJson abi j = .ok t) : t.Current := by
  have hrecord (source : String) (t : AliasTable) (ht : t.Current) (raw : Json) :
      Ends Current (fun _ => True) (loadRecord source t raw) := by
    refine (Ends.any _).bind fun raw' _ => ?_
    have huser : Ends (fun k : Json => k.isKey) (fun _ => True) raw'.asKey := by
      unfold Json.asKey
      split
      · exact .ok ‹_›
      · exact .error trivial
    refine huser.bind fun user huser => ?_
    split
    · exact .ok ht
    · refine (Ends.any _).bind fun _ _ => (Ends.any _).bind fun _ _ => ?_
      refine (Ends.any _).bind fun _ _ => (Ends.any _).bind fun _ _ => ?_
      refine (Ends.any _).bind fun _ _ => .ok (ht.put huser _)
  have hall : Ends Current (fun _ => True) (AliasTable.ofJson abi j) := by
    refine Ends.foldlM (fun t ht g _ => ?_) ?_
    · refine (Ends.any _).bind fun _ _ => (Ends.any _).bind fun _ _ => ?_
      exact Ends.foldlM (fun t ht raw _ => hrecord g.2 t ht raw) ht
    · exact current_empty abi
  exact hall.of_eq_ok t h

theorem Current.mapping (h : t.Current) (hname : name.isKey) :
    (∃ e, t.mapping name = .error e ∧ t.describe? name = .error e) ∨
      ∃ m t', t.mapping name = .ok (m, t') ∧ t'.Current ∧ t'.abi = t.abi ∧
        t'.entries = t.entries ∧ t.describe? name = .ok (m.map (·.named name)) ∧
        ∀ x ∈ m, x.userType == name := by
  unfold AliasTable.mapping
  cases hget : t.memo.get? name with
  | some m =>
    -- a description kept under a name that counts as one with this
    obtain ⟨k, hbeq, hmem⟩ := Table.exists_mem_of_get? hget
    obtain ⟨hk, hdescribe⟩ := h.kept _ hmem
    have hname' := h.describe?_congr hk hname hbeq
    rw [hdescribe] at hname'
    refine .inr ⟨some m, t, rfl, h, rfl, rfl, hname', ?_⟩
    rintro _ ⟨⟩
    rw [userType_of_describe? hdescribe]
    exact hbeq
  | none =>
    cases hdescribe : t.describe? name with
    | error e => exact .inl ⟨e, rfl, rfl⟩
    | ok m =>
      cases m with
      | none => exact .inr ⟨none, t, rfl, h, rfl, rfl, rfl, nofun⟩
      | some m =>
        have huser := userType_of_describe? hdescribe
        refine .inr ⟨some m, _, rfl, ⟨h.toNamed, fun e he => ?_⟩, rfl, rfl, ?_, ?_⟩
        · have hsame : ({ t with memo := t.memo.put name m } : AliasTable).describe? e.1 =
              t.describe? e.1 := describe?_eq_of_entries (by rfl) (by rfl) _
          rw [hsame]
          rcases Table.mem_entries_put he with he | rfl | ⟨w, hbeq, hw, -⟩
          · exact h.kept e he
          · exact ⟨hname, hdescribe⟩
          · -- the name is new among those with kept descriptions
            have hnew : t.memo.contains name = false := by
              rw [Table.contains_eq_isSome_get?, hget]
              rfl
            exact absurd (List.any_eq_true.mpr ⟨_, hw, hbeq⟩) (Bool.eq_false_iff.mp hnew)
        · rw [← huser]
          rfl
        · rintro _ ⟨⟩
          rw [huser]
          exact Json.beq_self_of_isKey hname

theorem Current.of_mapping (h : t.Current) (hname : name.isKey) {m : Option AliasMapping}
    (hmapping : t.mapping name = .ok (m, t')) : t'.Current := by
  rcases h.mapping hname with ⟨e, hfails, -⟩ | ⟨m', t1, hok, ht1, -⟩
  · cases hmapping.symm.trans hfails
  · obtain ⟨-, rfl⟩ := Prod.mk.inj (Except.ok.inj (hmapping.symm.trans hok))
    exact ht1

theorem Current.describe?_of_mem (h : t.Current) {e : Json × AliasEntry}
    (he : e ∈ t.entries.entries) : t.describe? e.1 = (t.derive e.1 e.2).map some := by
  have hself := Json.beq_self_of_isKey (h.isKey e.1 (List.mem_map_of_mem he))
  rw [describe?, Table.get?_of_mem_entries h.apart hself he]
  dsimp only
  cases t.derive e.1 e.2 <;> rfl

def gather (acc : List (Json × AliasMapping) × AliasTable) (name : Json) :
    Except Error (List (Json × AliasMapping) × AliasTable) := do
  let (m, t) ← acc.2.mapping name
  return (acc.1 ++ (m.map fun m => (name, m)).toList, t)

theorem mappings_eq_foldlM (t : AliasTable) : t.mappings = t.entries.keys.foldlM gather ([], t) :=
  rfl

theorem Current.foldlM_gather {t0 : AliasTable} (h0 : t0.Current) {es : List (Json × AliasEntry)}
    (hes : ∀ e ∈ es, e ∈ t0.entries.entries) (ms : List (Json × AliasMapping)) (h : t.Current)
    (habi : t.abi = t0.abi) (hentries : t.entries = t0.entries) :
    (∃ x, (es.map Prod.fst).foldlM gather (ms, t) = .error x ∧
        (es.mapM fun e => (t0.derive e.1 e.2).map (e.1, ·)) = .error x) ∨
      ∃ found t', (es.map Prod.fst).foldlM gather (ms, t) = .ok (ms ++ found, t') ∧ t'.Current ∧
        (es.mapM fun e => (t0.derive e.1 e.2).map (e.1, ·)) =
          .ok (found.map fun p => (p.1, p.2.named p.1)) ∧
        ∀ p ∈ found, p.2.userType == p.1 := by
  -- The entries stay the same while more and more descriptions are kept.
  induction es generalizing ms t with
  | nil => exact .inr ⟨[], t, by rw [List.append_nil]; rfl, h, rfl, nofun⟩
  | cons e es ih =>
    rw [List.forall_mem_cons] at hes
    have hkey := h0.isKey e.1 (List.mem_map_of_mem hes.1)
    have hdescribe := h0.describe?_of_mem hes.1
    rw [← describe?_eq_of_entries habi hentries] at hdescribe
    rw [List.map_cons, List.foldlM_cons, List.mapM_cons]
    rcases h.mapping hkey with
      ⟨x, hmapping, hfails⟩ | ⟨m, t', hmapping, ht', habi', hentries', hm, hname⟩
    · have hderive : t0.derive e.1 e.2 = .error x := by
        cases hd : t0.derive e.1 e.2 with
        | error y =>
          rw [hfails, hd] at hdescribe
          exact congrArg Except.error (Except.error.inj hdescribe).symm
        | ok d =>
          rw [hfails, hd] at hdescribe
          cases hdescribe
      refine .inl ⟨x, ?_, ?_⟩
      · rw [gather, hmapping]
        rfl
      · rw [hderive]
        rfl
    · obtain ⟨d, m, hderive, rfl, rfl⟩ : ∃ d m', t0.derive e.1 e.2 = .ok d ∧ m = some m' ∧
          m'.named e.1 = d := by
        rw [hm] at hdescribe
        cases hd : t0.derive e.1 e.2 with
        | error y =>
          rw [hd] at hdescribe
          cases hdescribe
        | ok d =>
          rw [hd] at hdescribe
          obtain ⟨m', rfl, hnamed⟩ := Option.map_eq_some_iff.mp (Except.ok.inj hdescribe)
          exact ⟨d, m', rfl, rfl, hnamed⟩
      have hstep : gather (ms, t) e.1 = .ok (ms ++ [(e.1, m)], t') := by
        rw [gather, hmapping]
        rfl
      rw [hstep, hderive, ok_bind]
      rcases ih hes.2 (ms ++ [(e.1, m)]) ht' (habi'.trans habi) (hentries'.trans hentries) with
        ⟨x, hfold, hrest⟩ | ⟨found, t'', hfold, ht'', hrest, hnames⟩
      · rw [hrest]
        exact .inl ⟨x, hfold, rfl⟩
      · rw [hrest]
        refine .inr ⟨(e.1, m) :: found, t'', ?_, ht'', rfl, ?_⟩
        · rw [hfold, List.append_assoc]
          rfl
        · exact List.forall_mem_cons.mpr ⟨hname m rfl, hnames⟩

/-! ## All tables -/

/-- The tables that operations lead to: registering, removing and reading aliases, and asking for
descriptions.  Looking up an alias or a chain leaves a table as it is. -/
inductive Reached : AliasTable → Prop
  | empty (abi : Target) : Reached (.empty abi)
  | standard (abi : Target) : Reached (.standard abi)
  | ofJson {abi : Target} {j : Json} {t : AliasTable} : AliasTable.ofJson abi j = .ok t → Reached t
  | register {t t' : AliasTable} {user base source lower upper : Json} : Reached t →
      t.register user base source lower upper = .ok t' → Reached t'
  | unregister {t : AliasTable} (name : Json) : Reached t → Reached (t.unregister name).2
  | registerText {t : AliasTable} (text : String) (source : Json) : Reached t →
      Reached (t.registerText text source).2
  | mapping {t t' : AliasTable} {name : Json} {m : Option AliasMapping} : Reached t →
      name.isKey → t.mapping name = .ok (m, t') → Reached t'
  | mappings {t t' : AliasTable} {ms : List (Json × AliasMapping)} : Reached t →
      t.mappings = .ok (ms, t') → Reached t'
  | domainFor {t t' : AliasTable} {type : String} {x : Json} {d : Option Domain} : Reached t →
      t.domainFor type x = .ok (d, t') → Reached t'

theorem Current.domainFor (h : t.Current) {type : String} {x : Json} {d : Option Domain}
    (hdomain : t.domainFor type x = .ok (d, t')) : t'.Current := by
  obtain ⟨⟨m, t1⟩, hmapping, hrest⟩ := bind_eq_ok hdomain
  have ht1 : t1.Current := h.of_mapping rfl hmapping
  cases m with
  | none =>
    dsimp only at hrest
    split at hrest
    · obtain ⟨bounds, -, hrest⟩ := bind_eq_ok hrest
      obtain ⟨-, rfl⟩ := Prod.mk.inj (Except.ok.inj hrest)
      exact ht1
    · obtain ⟨-, rfl⟩ := Prod.mk.inj (Except.ok.inj hrest)
      exact ht1
  | some m =>
    dsimp only at hrest
    split at hrest
    all_goals
      obtain ⟨-, rfl⟩ := Prod.mk.inj (Except.ok.inj hrest)
      exact ht1

theorem Reached.current (h : t.Reached) : t.Current := by
  induction h with
  | empty abi => exact current_empty abi
  | standard abi => exact current_standard abi
  | ofJson h => exact .ofJson h
  | register _ h ih => exact ih.register h
  | unregister name _ ih => exact ih.unregister name
  | registerText text source _ ih => exact ih.registerText text source
  | mapping _ hname h ih => exact ih.of_mapping hname h
  | mappings _ h ih =>
    rcases ih.foldlM_gather (fun _ he => he) [] ih rfl rfl with
      ⟨e, hfails, -⟩ | ⟨ms', t2, hok, ht2, -⟩
    · cases h.symm.trans hfails
    · obtain ⟨-, rfl⟩ := Prod.mk.inj (Except.ok.inj (h.symm.trans hok))
      exact ht2
  | domainFor _ h ih => exact ih.domainFor h

theorem named_eq_self {m : AliasMapping} {s : String} (h : m.userType == .str s) :
    m.named (.str s) = m := by
  rw [AliasMapping.named, ← (Json.isolated_str s m.userType).1.mp h]

/-- In a table that operations have led to, an alias is described as a table with the same entries
that keeps nothing describes it, and so are all aliases, each once and in the order of the entries.
A kept description may bear another name that counts as one with the name that is asked for; under a
text it bears that text. -/
theorem mapping_current (h : t.Reached) :
    (∀ s, (t.mapping (.str s)).map Prod.fst = t.bare.describe? (.str s)) ∧
    (∀ name : Json, name.isKey = true →
      ((t.mapping name).map fun r => r.1.map (·.named name)) = t.bare.describe? name ∧
        ∀ m t', t.mapping name = .ok (some m, t') → (m.userType == name) = true) ∧
    (t.mappings.map fun r => r.1.map fun p => (p.1, p.2.named p.1)) =
      (t.entries.entries.mapM fun e => (t.bare.derive e.1 e.2).map (e.1, ·)) ∧
    ∀ ms t', t.mappings = .ok (ms, t') → ∀ p ∈ ms, (p.2.userType == p.1) = true ∧
      ∀ s, p.1 = .str s → p.2.named p.1 = p.2 := by
  have hcurrent := h.current
  refine ⟨fun s => ?_, fun name hname => ?_, ?_⟩
  · rw [describe?_bare]
    rcases hcurrent.mapping (show (Json.str s).isKey from rfl) with
      ⟨e, hfails, hdescribe⟩ | ⟨m, t', hok, -, -, -, hdescribe, huser⟩
    · rw [hfails, hdescribe]
      rfl
    · rw [hok, hdescribe]
      cases m with
      | none => rfl
      | some m => rw [Option.map_some, named_eq_self (huser m rfl)]; rfl
  · rw [describe?_bare]
    rcases hcurrent.mapping hname with
      ⟨e, hfails, hdescribe⟩ | ⟨m, t', hok, -, -, -, hdescribe, huser⟩
    · rw [hfails, hdescribe]
      exact ⟨rfl, fun _ _ heq => by cases heq⟩
    · rw [hok, hdescribe]
      refine ⟨rfl, fun m' t'' heq => huser m' ?_⟩
      exact (Prod.mk.inj (Except.ok.inj heq)).1
  · simp only [derive_bare]
    rcases hcurrent.foldlM_gather (fun _ he => he) [] hcurrent rfl rfl with
      ⟨e, hfails, hderived⟩ | ⟨found, t', hok, -, hderived, huser⟩
    · rw [hderived, mappings_eq_foldlM, Table.keys, hfails]
      exact ⟨rfl, fun _ _ heq => by cases heq⟩
    · rw [hderived, mappings_eq_foldlM, Table.keys, hok]
      refine ⟨rfl, fun ms t'' heq p hp => ?_⟩
      obtain ⟨rfl, -⟩ := Prod.mk.inj (Except.ok.inj heq)
      have hname := huser p hp
      refine ⟨hname, fun s hs => ?_⟩
      rw [hs] at hname ⊢
      exact named_eq_self hname

def linked (byte : String) : AliasTable :=
  ⟨.lp64, ⟨[(.str "byte", ⟨byte, .str "Learned", .null, .null⟩),
    (.str "count", ⟨"byte", .str "Learned", .null, .null⟩)]⟩, .empty⟩

theorem reached_linked : (linked "unsigned char").Reached := by
  have hbyte : (empty .lp64).register (.str "byte") (.str "unsigned char") (.str "Learned") .null
      .null = .ok ⟨.lp64, ⟨[(.str "byte", ⟨"unsigned char", .str "Learned", .null, .null⟩)]⟩,
        .empty⟩ := by rfl
  have hcount : AliasTable.register ⟨.lp64,
      ⟨[(.str "byte", ⟨"unsigned char", .str "Learned", .null, .null⟩)]⟩, .empty⟩ (.str "count")
      (.str "byte") (.str "Learned") .null .null = .ok (linked "unsigned char") := by
    rfl
  exact ((Reached.empty .lp64).register hbyte).register hcount

/-- A description is kept, the alias under it changes, and the new description is another. -/
theorem mapping_current_linked :
    ∃ m t m' t', (linked "unsigned char").mapping (.str "count") = .ok (some m, t) ∧
      (m.size == .int 1) = true ∧
      t.register (.str "byte") (.str "unsigned short") (.str "Learned") .null .null = .ok t' ∧
      (t'.mapping (.str "count")).map Prod.fst = .ok (some m') ∧ (m'.size == .int 2) = true ∧
      t'.bare.describe? (.str "count") = .ok (some m') := by
  have hsize (byte : String) (n : Int)
      (hbyte : ((linked byte).describe? (.str "count")).toOption.map
        (fun m => m.any fun m => m.size == .int n) = some true) :
      ∃ m, (linked byte).describe? (.str "count") = .ok (some m) ∧ m.size == .int n := by
    obtain ⟨m, hm, hany⟩ := Option.map_eq_some_iff.mp hbyte
    obtain ⟨m, rfl, hn⟩ := (Option.any_eq_true _ _).mp hany
    exact ⟨m, eq_ok_of_toOption hm, hn⟩
  obtain ⟨m, hm, hone⟩ := hsize "unsigned char" 1 (by decide +kernel)
  obtain ⟨m', hm', htwo⟩ := hsize "unsigned short" 2 (by decide +kernel)
  have hkept : (linked "unsigned char").mapping (.str "count") = .ok (some m,
      { linked "unsigned char" with memo := Table.empty.put (.str "count") m }) := by
    show (linked "unsigned char").describe? (.str "count") >>= _ = _
    rw [hm]
    rfl
  have hchanged : AliasTable.register
      { linked "unsigned char" with memo := Table.empty.put (.str "count") m } (.str "byte")
      (.str "unsigned short") (.str "Learned") .null .null = .ok (linked "unsigned short") := by rfl
  have hreached := (reached_linked.mapping rfl hkept).register hchanged
  have hcurrent := (mapping_current hreached).1 "count"
  exact ⟨m, _, m', _, hkept, hone, hchanged, hcurrent.trans hm', htwo, hm'⟩

end AliasTable

end Branchwise
