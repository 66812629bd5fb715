import Branchwise.Proofs.Alias.Current
import Branchwise.Proofs.CType.Canonical
import Mathlib.Tactic

/-!
# Stored tables are read again

A table is stored in three lists by the sources of its aliases, and read list by list.  Nothing is
lost, as the names of a table are apart and its spellings canonical.  The order of the entries
changes, but not within a list, so the table that is read is stored alike.
-/

namespace Branchwise

open List AliasTable Json Spelling Table

/-! ## Tables of texts -/

namespace Table

variable {α : Type} {t t' : Table Json α}

theorem pairwise_iff_nodup {ks : List Json} (htext : ∀ k ∈ ks, k.IsText) :
    (ks.Pairwise fun a b => ¬(a == b)) ↔ ks.Nodup := by
  have hbeq {a b : Json} (ha : a ∈ ks) : a == b ↔ b = a := by
    obtain ⟨s, rfl⟩ := htext a ha
    exact (isolated_str s b).2
  exact ⟨fun h => h.imp_of_mem fun ha _ hne heq => hne ((hbeq ha).mpr heq.symm),
    fun h => h.imp_of_mem fun ha _ hne h => hne ((hbeq ha).mp h).symm⟩

theorem get?_eq_some_iff (htext : ∀ k ∈ t.keys, k.IsText) (hnodup : t.keys.Nodup) {k : Json}
    {v : α} : t.get? k = some v ↔ (k, v) ∈ t.entries := by
  constructor
  · intro h
    obtain ⟨k', hbeq, hmem⟩ := exists_mem_of_get? h
    obtain ⟨s, rfl⟩ := htext k' (mem_map_of_mem hmem)
    rwa [(isolated_str s k).2.mp hbeq]
  · intro h
    obtain ⟨s, rfl⟩ := htext k (mem_map_of_mem h)
    exact get?_of_mem_entries ((pairwise_iff_nodup htext).mpr hnodup)
      ((isolated_str s _).1.mpr rfl) h

theorem get?_eq_of_perm (hperm : t'.entries.Perm t.entries) (htext : ∀ k ∈ t.keys, k.IsText)
    (hnodup : t.keys.Nodup) (k : Json) : t'.get? k = t.get? k := by
  have hkeys : t'.keys.Perm t.keys := hperm.map Prod.fst
  have htext' : ∀ k ∈ t'.keys, k.IsText := fun k hk => htext k (hkeys.mem_iff.mp hk)
  refine Option.ext fun v => ?_
  rw [get?_eq_some_iff htext' (hkeys.nodup_iff.mpr hnodup), get?_eq_some_iff htext hnodup,
    hperm.mem_iff]

end Table

namespace AliasTable

variable {t t' : AliasTable} {entries : Table Json AliasEntry}

/-! ## Tables that can be stored -/

structure IsStorable (e : Json × AliasEntry) : Prop where
  name : e.1.IsText
  source : e.2.source.IsText
  target : normalize e.2.target = e.2.target

structure Storable (entries : Table Json AliasEntry) : Prop where
  entry : ∀ e ∈ entries.entries, IsStorable e
  nodup : entries.keys.Nodup

theorem Storable.isText (h : Storable entries) : ∀ k ∈ entries.keys, k.IsText := by
  intro k hk
  obtain ⟨e, he, rfl⟩ := mem_map.mp hk
  exact (h.entry e he).name

theorem Storable.put (h : Storable entries) {name : Json}
    {e : AliasEntry} (he : IsStorable (name, e)) : Storable (entries.put name e) where
  entry := by
    intro e' he'
    rcases mem_entries_put he' with he' | rfl | ⟨w, -, hw, heq⟩
    · exact h.entry e' he'
    · exact he
    · exact ⟨(h.entry _ hw).name, heq ▸ he.source, heq ▸ he.target⟩
  nodup := by
    rw [keys_put]
    split
    · exact h.nodup
    · rename_i hnew
      obtain ⟨s, rfl⟩ : name.IsText := he.name
      rw [contains_iff_of_isolated (isolated_str s)] at hnew
      exact nodup_append.mpr ⟨h.nodup, nodup_singleton _, fun a ha b hb heq =>
        hnew (mem_singleton.mp hb ▸ heq ▸ ha)⟩

theorem storable_empty : Storable .empty := ⟨nofun, .nil⟩

theorem storable_standard (abi : Target) : Storable (standard abi).entries := by
  have hcanonical : ∀ p ∈ standardAliases, normalize p.2 = p.2 := by decide +kernel
  refine Storable.put ?_ ⟨⟨_, rfl⟩, ⟨_, rfl⟩, by decide +kernel⟩
  exact foldlRecOn standardAliases _ storable_empty fun _ h p hp =>
    h.put ⟨⟨_, rfl⟩, ⟨_, rfl⟩, hcanonical p hp⟩

theorem Storable.erase (h : Storable entries) (name : Json) : Storable (entries.erase name) where
  entry := fun e he => h.entry e (mem_filter.mp he).1
  nodup := h.nodup.sublist (filter_sublist.map Prod.fst)

/-- The tables that registering and removing aliases lead to, if every source is a text. -/
inductive Built : AliasTable → Prop
  | empty (abi : Target) : Built (.empty abi)
  | standard (abi : Target) : Built (.standard abi)
  | register {t t' : AliasTable} {user base lower upper : Json} {source : String} : Built t →
      t.register user base (.str source) lower upper = .ok t' → Built t'
  | unregister {t : AliasTable} (name : Json) : Built t → Built (t.unregister name).2
  | registerText {t : AliasTable} (text source : String) : Built t →
      Built (t.registerText text (.str source)).2

theorem Built.storable (h : t.Built) : Storable t.entries := by
  induction h with
  | empty abi => exact storable_empty
  | standard abi => exact storable_standard abi
  | register _ h ih =>
    obtain ⟨name, target, -, -, rfl⟩ := register_eq_ok h
    exact ih.put ⟨⟨name, rfl⟩, ⟨_, rfl⟩, normalize_normalize target⟩
  | unregister name _ ih => exact ih.erase name
  | @registerText t text source _ ih =>
    unfold AliasTable.registerText
    dsimp only
    rw [foldl_map]
    exact foldlRecOn (motive := fun t : AliasTable => Storable t.entries) (Alias.scan text) _
      ih fun _ hs d _ => hs.put ⟨⟨d.name, rfl⟩, ⟨source, rfl⟩, normalize_normalize d.type⟩

theorem Built.memo (h : t.Built) : t.memo = .empty := by
  cases h with
  | register _ h =>
    obtain ⟨name, target, -, -, rfl⟩ := register_eq_ok h
    rfl
  | registerText text source _ =>
    exact foldlRecOn (motive := fun t : AliasTable => t.memo = .empty) _ _ rfl
      fun _ _ _ _ => rfl
  | _ => rfl

/-! ## Storing -/

def listOf (e : Json × AliasEntry) : String := ((groupOf e.2.source).toOption).getD ""

theorem groupOf_source {e : Json × AliasEntry} (h : IsStorable e) :
    groupOf e.2.source = .ok (listOf e) ∧
      (listOf e = "predefined" ∨ listOf e = "detected" ∨ listOf e = "learned") := by
  obtain ⟨s, hs⟩ := h.source
  unfold listOf
  rw [hs, groupOf]
  split_ifs <;> simp [Except.toOption]

def records (es : List (Json × AliasEntry)) : List Json := es.map fun e => recordJson e.1 e.2

def stored (t : AliasTable) (g : String) : List (Json × AliasEntry) :=
  t.entries.entries.filter fun e => listOf e = g

theorem Storable.toJson_eq (h : Storable t.entries) :
    t.toJson = .ok (.obj [("version", .str "1.0"),
      ("predefined", .arr (records (t.stored "predefined"))),
      ("detected", .arr (records (t.stored "detected"))),
      ("learned", .arr (records (t.stored "learned")))]) := by
  have hrecords : (t.entries.entries.mapM fun e => do
      return (← groupOf e.2.source, recordJson e.1 e.2)) =
        .ok (t.entries.entries.map fun e => (listOf e, recordJson e.1 e.2)) :=
    mapM_eq_ok_map fun e he => by rw [(groupOf_source (h.entry e he)).1]; rfl
  have hgroup (g : String) : (((t.entries.entries.map fun e =>
      (listOf e, recordJson e.1 e.2)).filter fun r => r.1 = g).map Prod.snd) =
        records (t.stored g) := by
    rw [filter_map, map_map]
    rfl
  unfold toJson
  rw [hrecords]
  simp only [ok_bind, hgroup]
  rfl

/-! ## Reading -/

theorem loadRecord_recordJson {e : Json × AliasEntry} (he : IsStorable e) (source : String)
    (hnew : t.contains e.1 = false) :
    loadRecord source t (recordJson e.1 e.2) =
      .ok ⟨t.abi, ⟨t.entries.entries ++ [e]⟩, .empty⟩ := by
  obtain ⟨s, hs⟩ := he.name
  have hput : t.put e.1 e.2 = ⟨t.abi, ⟨t.entries.entries ++ [e]⟩, .empty⟩ := by
    rw [put, put_of_contains_eq_false e.2 hnew]
  have hentry : (⟨Spelling.normalize e.2.target, e.2.source, e.2.lower, e.2.upper⟩ : AliasEntry) =
      e.2 := by rw [he.target]
  have hkey : e.1.asKey = .ok e.1 := by rw [hs]; rfl
  have hload : loadRecord source t (recordJson e.1 e.2) = (do
      let user ← e.1.asKey
      if t.contains user then return t
      return t.put user ⟨Spelling.normalize e.2.target, e.2.source, e.2.lower, e.2.upper⟩) := rfl
  rw [hload, hkey, ok_bind, hnew, hentry, hput]
  rfl

theorem foldlM_loadRecord (source : String) {es : List (Json × AliasEntry)}
    (hes : ∀ e ∈ es, IsStorable e) (hmemo : t.memo = .empty)
    (hnodup : (t.entries.keys ++ es.map Prod.fst).Nodup) :
    (records es).foldlM (loadRecord source) t =
      .ok ⟨t.abi, ⟨t.entries.entries ++ es⟩, .empty⟩ := by
  induction es generalizing t with
  | nil =>
    rw [append_nil, ← hmemo]
    rfl
  | cons e es ih =>
    rw [forall_mem_cons] at hes
    have hnew : t.contains e.1 = false := by
      obtain ⟨s, hs⟩ := hes.1.name
      rw [Bool.eq_false_iff, hs]
      intro hmem
      have hmem : e.1 ∈ t.entries.keys :=
        hs ▸ (contains_iff_of_isolated (isolated_str s) t.entries).mp hmem
      exact (nodup_append.mp hnodup).2.2 _ hmem _ mem_cons_self rfl
    have hrest : ((t.entries.entries ++ [e]).map Prod.fst ++ es.map Prod.fst).Nodup := by
      rw [map_append, append_assoc]
      exact hnodup
    rw [records, map_cons, foldlM_cons, loadRecord_recordJson hes.1 source hnew, ok_bind]
    rw [← records, ih (t := ⟨t.abi, ⟨t.entries.entries ++ [e]⟩, .empty⟩) hes.2 rfl hrest,
      append_assoc]
    rfl

/-- A table with its entries in the order in which they are stored, without descriptions. -/
def reordered (t : AliasTable) : AliasTable :=
  ⟨t.abi, ⟨t.stored "predefined" ++ t.stored "detected" ++ t.stored "learned"⟩, .empty⟩

theorem Storable.reordered_perm (h : Storable t.entries) :
    t.reordered.entries.entries.Perm t.entries.entries := by
  have hlists {e : Json × AliasEntry} (he : e ∈ t.entries.entries) :=
    (groupOf_source (h.entry e he)).2
  have hdetected : ((t.entries.entries.filter fun e => !decide (listOf e = "predefined")).filter
      fun e => listOf e = "detected") = t.stored "detected" := by
    rw [filter_filter]
    exact filter_congr fun e he => by rcases hlists he with h | h | h <;> simp [h]
  have hlearned : ((t.entries.entries.filter fun e => !decide (listOf e = "predefined")).filter
      fun e => !decide (listOf e = "detected")) = t.stored "learned" := by
    rw [filter_filter]
    exact filter_congr fun e he => by rcases hlists he with h | h | h <;> simp [h]
  show (t.stored "predefined" ++ t.stored "detected" ++ t.stored "learned").Perm _
  rw [append_assoc, ← hdetected, ← hlearned]
  exact ((filter_append_perm _ _).append_left _).trans (filter_append_perm _ _)

theorem Storable.reordered (h : Storable t.entries) : Storable t.reordered.entries where
  entry := fun e he => h.entry e (h.reordered_perm.mem_iff.mp he)
  nodup := (h.reordered_perm.map Prod.fst).nodup_iff.mpr h.nodup

theorem stored_reordered (t : AliasTable) {g : String}
    (hg : g = "predefined" ∨ g = "detected" ∨ g = "learned") :
    t.reordered.stored g = t.stored g := by
  have hlist (g' : String) : (t.stored g').filter (fun e => listOf e = g) =
      if g' = g then t.stored g else [] := by
    split
    · rename_i heq
      rw [heq, stored]
      simp
    · rename_i hne
      exact filter_eq_nil_iff.mpr fun e he => by
        simpa [of_decide_eq_true (mem_filter.mp he).2] using hne
  show (t.stored "predefined" ++ t.stored "detected" ++ t.stored "learned").filter _ = _
  rw [filter_append, filter_append, hlist, hlist, hlist]
  rcases hg with rfl | rfl | rfl <;> simp

theorem toJson_reordered (h : Storable t.entries) : t.reordered.toJson = t.toJson := by
  rw [h.toJson_eq, h.reordered.toJson_eq, stored_reordered t (.inl rfl),
    stored_reordered t (.inr (.inl rfl)), stored_reordered t (.inr (.inr rfl))]

theorem elements_orElse_nil (xs : List Json) :
    ((arr xs).orElse (.arr [])).elements = .ok xs := by
  cases xs <;> rfl

def loadList (j : Json) (t : AliasTable) (g : String × String) : Decoder AliasTable := do
  let records ← (← j.fieldOr g.1 .null).orElse (.arr []) |>.elements
  records.foldlM (loadRecord g.2) t

theorem loadList_eq_ok {j : Json} {g : String × String} {abi : Target}
    {read es : List (Json × AliasEntry)} (hfield : j.fieldOr g.1 .null = .ok (.arr (records es)))
    (hes : ∀ e ∈ es, IsStorable e) (hnodup : ((read ++ es).map Prod.fst).Nodup) :
    loadList j ⟨abi, ⟨read⟩, .empty⟩ g = .ok ⟨abi, ⟨read ++ es⟩, .empty⟩ := by
  rw [loadList, hfield, ok_bind, elements_orElse_nil]
  exact foldlM_loadRecord g.2 hes rfl (map_append ▸ hnodup)

theorem ofJson_toJson (h : Storable t.entries) :
    (t.toJson >>= ofJson t.abi) = .ok t.reordered := by
  have hentry (g : String) : ∀ e ∈ t.stored g, IsStorable e :=
    fun e he => h.entry e (mem_filter.mp he).1
  have hnodup : ((t.stored "predefined" ++ t.stored "detected" ++ t.stored "learned").map
      Prod.fst).Nodup := h.reordered.nodup
  have hdetected : ((t.stored "predefined" ++ t.stored "detected").map Prod.fst).Nodup :=
    hnodup.sublist ((sublist_append_left _ _).map _)
  have hpredefined : (([] ++ t.stored "predefined").map Prod.fst).Nodup :=
    hdetected.sublist ((sublist_append_left _ _).map _)
  rw [h.toJson_eq]
  show storedGroups.foldlM (loadList _) ⟨t.abi, ⟨[]⟩, .empty⟩ = _
  rw [storedGroups, foldlM_cons, loadList_eq_ok rfl (hentry _) hpredefined, ok_bind,
    nil_append, foldlM_cons, loadList_eq_ok rfl (hentry _) hdetected, ok_bind,
    foldlM_cons, loadList_eq_ok rfl (hentry _) hnodup]
  rfl

/-! ## Losslessness -/

theorem mapping_of_memo_empty (h : t.memo = .empty) (name : Json) :
    (t.mapping name).map Prod.fst = t.describe? name := by
  unfold mapping
  rw [h]
  cases t.describe? name with
  | error x => rfl
  | ok m => cases m <;> rfl

/-- A table that registering and removing aliases has led to is stored, and the stored form is read
again, to a table with the same entries that answers every query alike and is stored alike. -/
theorem storage_lossless (h : t.Built) :
    ∃ j t', t.toJson = .ok j ∧ AliasTable.ofJson t.abi j = .ok t' ∧ t'.abi = t.abi ∧
      t'.entries.entries.Perm t.entries.entries ∧
      (∀ name, t'.entries.get? name = t.entries.get? name) ∧
      (∀ name, t'.resolve? name = t.resolve? name) ∧ (∀ s, t'.chain s = t.chain s) ∧
      (∀ name, (t'.mapping name).map Prod.fst = (t.mapping name).map Prod.fst) ∧
      t'.toJson = .ok j := by
  have hs := h.storable
  have hget := get?_eq_of_perm hs.reordered_perm hs.isText hs.nodup
  have hsize : t.reordered.size = t.size := hs.reordered_perm.length_eq
  obtain ⟨j, hstore, hread⟩ := bind_eq_ok (ofJson_toJson hs)
  refine ⟨j, t.reordered, hstore, hread, rfl, hs.reordered_perm, hget, fun name => ?_,
    chain_eq hget hsize, fun name => ?_, (toJson_reordered hs).trans hstore⟩
  · rw [resolve?, resolve?, hget]
  · rw [mapping_of_memo_empty rfl, mapping_of_memo_empty h.memo, describe?_eq (by rfl) hget hsize]

/-- Three aliases, one for each list, the last registered being the first that is stored. -/
def mixed : AliasTable :=
  ⟨.lp64, ⟨[(.str "quad", ⟨"byte[4]", .str "Learned", .null, .null⟩),
    (.str "byte", ⟨"unsigned char", .str "Detected in text", .null, .null⟩),
    (.str "digit", ⟨"byte", .str "Predefined", .int 0, .int 9⟩)]⟩, .empty⟩

theorem built_mixed : mixed.Built := by
  let quad : Json × AliasEntry := (.str "quad", ⟨"byte[4]", .str "Learned", .null, .null⟩)
  let byte : Json × AliasEntry :=
    (.str "byte", ⟨"unsigned char", .str "Detected in text", .null, .null⟩)
  have hquad : (empty .lp64).register (.str " quad ") (.str "byte  [ 4 ]") (.str "Learned") .null
      .null = .ok ⟨.lp64, ⟨[quad]⟩, .empty⟩ := by
    have hname : (Json.str " quad ").strip = .ok "quad" := eq_ok_of_toOption (by decide +kernel)
    have htype : normalize "byte  [ 4 ]" = "byte[4]" := by decide +kernel
    simp only [register, hname, Json.spelling, ok_bind, htype]
    rfl
  have hbyte : (AliasTable.registerText ⟨.lp64, ⟨[quad]⟩, .empty⟩ "typedef unsigned  char byte;"
      (.str "Detected in text")).2 = ⟨.lp64, ⟨[quad, byte]⟩, .empty⟩ := by
    have hscan : Alias.scan "typedef unsigned  char byte;" = [⟨"byte", "unsigned char"⟩] := by
      decide +kernel
    have htype : normalize "unsigned char" = "unsigned char" := by decide +kernel
    simp only [registerText, hscan, map_cons, map_nil, htype]
    rfl
  have hdigit : register ⟨.lp64, ⟨[quad, byte]⟩, .empty⟩ (.str "digit") (.str "byte")
      (.str "Predefined") (.int 0) (.int 9) = .ok mixed := by
    have hname : (Json.str "digit").strip = .ok "digit" := eq_ok_of_toOption (by decide +kernel)
    have htype : normalize "byte" = "byte" := by decide +kernel
    simp only [register, hname, Json.spelling, ok_bind, htype]
    rfl
  exact (hbyte ▸ ((Built.empty .lp64).register hquad).registerText _ _).register hdigit

theorem storage_lossless_mixed :
    mixed.Built ∧ ∃ j t', mixed.toJson = .ok j ∧ AliasTable.ofJson .lp64 j = .ok t' ∧
      t'.entries.keys = [.str "digit", .str "byte", .str "quad"] ∧
      (∀ name, t'.entries.get? name = mixed.entries.get? name) ∧ t'.toJson = .ok j := by
  obtain ⟨j, t', hstore, hread, -, -, hget, -, -, -, hagain⟩ := storage_lossless built_mixed
  refine ⟨built_mixed, j, t', hstore, hread, ?_, hget, hagain⟩
  have hreordered := ofJson_toJson built_mixed.storable
  rw [hstore, ok_bind] at hreordered
  rw [Except.ok.inj (hread.symm.trans hreordered)]
  rfl

end AliasTable

end Branchwise
