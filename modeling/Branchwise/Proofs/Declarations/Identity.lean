import Branchwise.Calls.Graph
import Branchwise.Proofs.Data.Table
import Branchwise.Proofs.Number.Order

/-!
# Which entities count as one

Keys count as one if they have one text, one numeric value, or are one and the same non-number, so
identities do if they agree in all of that.  No two aggregates of a unit count as one: an aggregate
that is added again stays what it was, and marking functions changes no aggregate.
-/

namespace Branchwise

open List Entity Scalar

/-! ## Keys -/

def Scalar.tag? : Scalar → Option Nat
  | real (.nan tag) => some tag
  | _ => none

theorem Scalar.exists_value_or_nan (s : Scalar) :
    (∃ x, s.value? = some x ∧ s.tag? = none) ∨ ∃ tag, s = .real (.nan tag) := by
  cases s with
  | bool b => exact .inl ⟨_, rfl, rfl⟩
  | int n => exact .inl ⟨_, rfl, rfl⟩
  | real x =>
    cases x with
    | nan tag => exact .inr ⟨tag, rfl⟩
    | finite | infinite => exact .inl ⟨_, rfl, rfl⟩

theorem Scalar.same_iff (a b : Scalar) :
    a.same b ↔ a.value? = b.value? ∧ a.tag? = b.tag? := by
  rcases a.exists_value_or_nan with ⟨x, hx, hxt⟩ | ⟨tag, rfl⟩
  · have hsame : a.same b = a.eq b := by
      unfold same
      split
      · cases hx
      · rfl
    rw [hsame, eq, hx, hxt]
    rcases b.exists_value_or_nan with ⟨y, hy, hyt⟩ | ⟨tag, rfl⟩
    · simp [hy, hyt]
    · simp [value?]
  · rcases b.exists_value_or_nan with ⟨y, hy, hyt⟩ | ⟨tag', rfl⟩
    · have hsame : (real (.nan tag)).same b = (real (.nan tag)).eq b := by
        unfold same
        split
        · cases hy
        · rfl
      rw [hsame, eq, hy]
      simp [value?]
    · simp [same, value?, tag?]

namespace Json

/-- What a key is compared by: its text, its numeric value, or what distinguishes it from other
non-numbers. -/
def mark : Json → Option String × Option Extended × Option Nat
  | str s => (some s, none, none)
  | j => (none, j.value?, j.scalar?.bind tag?)

theorem cases_of_isKey {j : Json} (h : j.isKey) :
    j = null ∨ (∃ s, j = str s) ∨ ∃ x, j = ofScalar x := by
  cases j with
  | null => exact .inl rfl
  | str s => exact .inr (.inl ⟨s, rfl⟩)
  | bool b => exact .inr (.inr ⟨.bool b, rfl⟩)
  | int n => exact .inr (.inr ⟨.int n, rfl⟩)
  | real x => exact .inr (.inr ⟨.real x, rfl⟩)
  | arr | obj => cases h

theorem mark_ofScalar (x : Scalar) : (ofScalar x).mark = (none, x.value?, x.tag?) := by
  cases x <;> rfl

theorem mark_ofScalar_ne_null (x : Scalar) : (ofScalar x).mark ≠ null.mark := by
  rw [mark_ofScalar]
  rcases x.exists_value_or_nan with ⟨v, hv, -⟩ | ⟨tag, rfl⟩
  · simp [hv, mark, value?, scalar?]
  · simp [mark, tag?, scalar?]

theorem mark_ofScalar_ne_str (x : Scalar) (s : String) : (ofScalar x).mark ≠ (str s).mark := by
  rw [mark_ofScalar]
  simp [mark]

theorem beq_iff_mark {j k : Json} (hj : j.isKey) (hk : k.isKey) :
    (j == k) ↔ j.mark = k.mark := by
  have hfalse {j k : Json} (h : j.same k = false) (hne : j.mark ≠ k.mark) :
      (j == k) ↔ j.mark = k.mark :=
    ⟨fun htrue => (Bool.eq_false_iff.mp h htrue).elim, fun heq => (hne heq).elim⟩
  rcases cases_of_isKey hj with rfl | ⟨s, rfl⟩ | ⟨x, rfl⟩ <;>
    rcases cases_of_isKey hk with rfl | ⟨t, rfl⟩ | ⟨y, rfl⟩
  · exact ⟨fun _ => rfl, fun _ => rfl⟩
  · exact hfalse rfl (by simp [mark])
  · exact hfalse (by cases y <;> rfl) (mark_ofScalar_ne_null y).symm
  · exact hfalse rfl (by simp [mark])
  · show decide (s = t) ↔ _
    simp [mark]
  · exact hfalse (by cases y <;> rfl) (mark_ofScalar_ne_str y s).symm
  · exact hfalse (by cases x <;> rfl) (mark_ofScalar_ne_null x)
  · exact hfalse (by cases x <;> rfl) (mark_ofScalar_ne_str x t)
  · have hsame : (ofScalar x == ofScalar y) = x.same y := by
      cases x <;> cases y <;> rfl
    rw [hsame, same_iff, mark_ofScalar, mark_ofScalar]
    simp

theorem isKey_of_beq {j k : Json} (hj : j.isKey) (h : j == k) : k.isKey := by
  cases k with
  | arr | obj =>
    cases j with
    | arr | obj => cases hj
    | _ => cases h
  | _ => rfl

/-- Keys that count as one are equal to the same values. -/
theorem beq_congr_of_isKey {j k a : Json} (hj : j.isKey) (hk : k.isKey) (h : j == k) :
    (j == a) = (k == a) := by
  have hmark := (beq_iff_mark hj hk).mp h
  rw [Bool.eq_iff_iff]
  constructor
  · intro ha
    have hkey := isKey_of_beq hj ha
    rwa [beq_iff_mark hk hkey, ← hmark, ← beq_iff_mark hj hkey]
  · intro ha
    have hkey := isKey_of_beq hk ha
    rwa [beq_iff_mark hj hkey, hmark, ← beq_iff_mark hk hkey]

theorem beq_self_of_isKey {k : Json} (hk : k.isKey) : k == k :=
  (beq_iff_mark hk hk).mpr rfl

end Json

def Identity.mark (i : Identity) :=
  (i.kind, i.name.mark, i.file.mark, i.line.mark)

theorem Identity.beq_iff_mark {i j : Identity} (hi : i.isKey) (hj : j.isKey) :
    (i == j) ↔ i.mark = j.mark := by
  obtain ⟨k, n, f, l⟩ := i
  obtain ⟨k', n', f', l'⟩ := j
  have hbeq : ((⟨k, n, f, l⟩ : Identity) == ⟨k', n', f', l'⟩)
      = (k == k' && (n == n' && (f == f' && l == l'))) := rfl
  simp only [isKey, Bool.and_eq_true] at hi hj
  rw [hbeq]
  simp only [Bool.and_eq_true, beq_iff_eq, Json.beq_iff_mark hi.1.1 hj.1.1,
    Json.beq_iff_mark hi.1.2 hj.1.2, Json.beq_iff_mark hi.2 hj.2, mark, Prod.mk.injEq]

theorem Identity.isKey_name {i : Identity} (h : i.isKey) : i.name.isKey :=
  (Bool.and_eq_true_iff.mp (Bool.and_eq_true_iff.mp h).1).1

theorem Identity.name_mark {i j : Identity} (h : i.mark = j.mark) : i.name.mark = j.name.mark :=
  congrArg (fun m => m.2.1) h

theorem Identity.kind_eq_of_beq {i j : Identity} (h : i == j) : i.kind = j.kind := by
  exact eq_of_beq (Bool.and_eq_true_iff.mp h).1

/-! ## The entities of a unit -/

def Entity.aggregate? : Entity → Option AggregateDecl
  | aggregate a => some a
  | _ => none

theorem Entity.eq_of_aggregate? {e : Entity} {a : AggregateDecl} (h : e.aggregate? = some a) :
    e = .aggregate a := by
  cases e with
  | aggregate b => exact congrArg _ (Option.some.inj h)
  | _ => cases h

theorem Entity.kind_eq_function_iff {e : Entity} : e.kind = .function ↔ ∃ f, e = .function f := by
  cases e with
  | function f => simp [kind, identity]
  | aggregate a =>
    simp only [kind, identity, AggregateDecl.identity, AggregateDecl.kind]
    split <;> simp
  | _ => simp [kind, identity]

namespace Declarations

variable {d d' : Declarations} {e e' : Entity} {i : Identity} {f : Entity → Entity}

theorem allAggregates_eq (d : Declarations) :
    d.allAggregates = d.entities.filterMap aggregate? := by
  rfl

theorem mem_allAggregates {a : AggregateDecl} : a ∈ d.allAggregates ↔ aggregate a ∈ d.entities := by
  rw [allAggregates_eq, mem_filterMap]
  constructor
  · rintro ⟨e, he, ha⟩
    exact eq_of_aggregate? ha ▸ he
  · intro ha
    exact ⟨_, ha, rfl⟩

theorem mem_of_preferred {es : List Entity} (h : preferred es = some e) : e ∈ es := by
  rcases Option.or_eq_some_iff.mp h with h | ⟨-, h⟩
  · exact mem_of_find?_eq_some h
  · exact mem_of_head? h

theorem mem_of_mem_fetch {places : List Nat} (h : e ∈ d.fetch places) : e ∈ d.entities := by
  obtain ⟨place, -, hplace⟩ := mem_filterMap.mp h
  exact mem_of_getElem? hplace

theorem mem_of_find? {name : Json} {kind : Option EntityKind} (h : d.find? name kind = some e) :
    e ∈ d.entities :=
  mem_of_mem_fetch (mem_of_mem_filter (mem_of_preferred h))

theorem find?_of_function? {name : Json} {f : FunctionDecl} (h : d.function? name = some f) :
    d.find? name (some .function) = some (.function f) := by
  unfold function? at h
  split at h
  · rw [← Option.some.inj h]
    assumption
  · cases h

theorem function?_of_getFunction {name : Json} {f : FunctionDecl} (h : d.getFunction name = .ok f) :
    d.function? name = some f := by
  unfold getFunction at h
  split at h
  · rw [← Except.ok.inj h]
    assumption
  · cases h

/-- The identities of all entities, in the order of addition. -/
def identities (d : Declarations) : List Identity := d.entities.map identity

/-! ### The two stores -/

/-- The tables and the index are in step: both hold the place of every entity, the one under its
identity and the other under its name, in the order of addition. -/
structure InStep (d : Declarations) : Prop where
  table_eq : ∀ k, (d.table k).entries = d.identities.zipIdx.filter fun x => x.1.kind = k
  named_eq : ∀ name,
    d.named name = (d.identities.zipIdx.filter fun x => x.1.name == name).map Prod.snd
  isKey_name : ∀ name ∈ d.index.keys, name.isKey

/-- The places of some identities lead to the entities that have them. -/
theorem fetch_places (d : Declarations) (p : Identity → Bool) :
    d.fetch ((d.identities.zipIdx.filter fun x => p x.1).map Prod.snd)
      = d.entities.filter fun e => p e.identity := by
  have hplace : ∀ x ∈ d.entities.zipIdx.filter fun x => p x.1.identity,
      d.entities[x.2]? = some x.1 := fun x hx => mem_zipIdx_iff_getElem?.mp (mem_of_mem_filter hx)
  rw [fetch, identities, zipIdx_map, filter_map, filterMap_map, filterMap_map]
  calc _ = (d.entities.zipIdx.filter fun x => p x.1.identity).filterMap (some ∘ Prod.fst) :=
        filterMap_congr hplace
    _ = (d.entities.zipIdx.map Prod.fst).filter fun e => p e.identity := by
        rw [filterMap_eq_map, filter_map]
        rfl
    _ = _ := by rw [zipIdx_map_fst]

theorem inStep_empty (t : Target) : (empty t).InStep := ⟨fun _ => rfl, fun _ => rfl, nofun⟩

section

variable (hd : d.InStep)
include hd

theorem InStep.keys_table (k : EntityKind) :
    (d.table k).keys = d.identities.filter fun i => i.kind = k := by
  have hfirst : (d.identities.zipIdx.filter fun x => x.1.kind = k).map Prod.fst
      = (d.identities.zipIdx.map Prod.fst).filter fun i => i.kind = k := by
    rw [filter_map]
    rfl
  rw [Table.keys, hd.table_eq, hfirst, zipIdx_map_fst]

/-- The place that a table holds for an identity is that of an entity that has it. -/
theorem InStep.exists_entity {k : EntityKind} {place : Nat}
    (h : (i, place) ∈ (d.table k).entries) : ∃ x, d.entities[place]? = some x ∧ x.identity = i := by
  rw [hd.table_eq] at h
  have hplace := mem_zipIdx_iff_getElem?.mp (mem_of_mem_filter h)
  rw [identities, getElem?_map] at hplace
  exact Option.map_eq_some_iff.mp hplace

/-- The index refers under a name to the places that the tables hold for that name. -/
theorem InStep.mem_named_iff {name : Json} {place : Nat} : place ∈ d.named name ↔
    ∃ k i, (i, place) ∈ (d.table k).entries ∧ i.name == name := by
  simp only [hd.named_eq, hd.table_eq, mem_map, mem_filter]
  constructor
  · rintro ⟨⟨i, place⟩, ⟨hmem, hname⟩, rfl⟩
    exact ⟨i.kind, i, ⟨hmem, decide_eq_true rfl⟩, hname⟩
  · rintro ⟨k, i, ⟨hmem, -⟩, hname⟩
    exact ⟨(i, place), ⟨hmem, hname⟩, rfl⟩

theorem InStep.pairwise_named (name : Json) : (d.named name).Pairwise (· < ·) := by
  have hplaces : (d.identities.zipIdx.map Prod.snd).Pairwise (· < ·) := by
    rw [zipIdx_map_snd]
    exact pairwise_lt_range'
  rw [hd.named_eq]
  exact hplaces.sublist (filter_sublist.map _)

theorem InStep.ofKind_eq (k : EntityKind) : d.ofKind k = d.entities.filter fun e => e.kind = k := by
  rw [ofKind, Table.values, hd.table_eq]
  exact d.fetch_places fun i => i.kind = k

theorem InStep.mem_ofKind (he : e ∈ d.entities) : e ∈ d.ofKind e.kind := by
  rw [hd.ofKind_eq]
  exact mem_filter.mpr ⟨he, decide_eq_true rfl⟩

theorem InStep.findAll_eq (name : Json) :
    d.findAll name = d.entities.filter fun e => e.name == name := by
  rw [findAll, hd.named_eq]
  exact d.fetch_places fun i => i.name == name

theorem InStep.name_of_find? {name : Json} {kind : Option EntityKind}
    (h : d.find? name kind = some e) : e.name == name := by
  have hmem := mem_of_mem_filter (mem_of_preferred h)
  rw [hd.findAll_eq] at hmem
  exact (mem_filter.mp hmem).2

theorem InStep.lookup?_eq (i : Identity) :
    d.lookup? i = d.entities.find? fun e => e.identity == i := by
  have htest (j : Identity) : decide (j.kind = i.kind) = true ∧ (j == i) = true ↔ j == i :=
    ⟨And.right, fun h => ⟨decide_eq_true (Identity.kind_eq_of_beq h), h⟩⟩
  have hplace : ∀ x, d.entities.zipIdx.find? (fun x => x.1.identity == i) = some x →
      d.entities[x.2]? = some x.1 := fun x hx =>
    mem_zipIdx_iff_getElem?.mp (mem_of_find?_eq_some hx)
  have hfind : d.entities.find? (fun e => e.identity == i)
      = (d.entities.zipIdx.find? fun x => x.1.identity == i).map Prod.fst := by
    conv_lhs => rw [← zipIdx_map_fst 0 d.entities, find?_map]
    rfl
  rw [lookup?, Table.get?, hd.table_eq, find?_filter, identities, zipIdx_map, find?_map]
  simp only [Function.comp_def, Prod.map_fst, htest, Bool.decide_eq_true]
  rw [hfind]
  cases hx : d.entities.zipIdx.find? fun x => x.1.identity == i with
  | none => rfl
  | some x => exact hplace x hx

theorem InStep.congr (h : d'.identities = d.identities) (htables : d'.tables = d.tables)
    (hindex : d'.index = d.index) : d'.InStep := by
  refine ⟨fun k => ?_, fun name => ?_, hindex ▸ hd.isKey_name⟩
  · rw [table, htables, h]
    exact hd.table_eq k
  · rw [named, hindex, h]
    exact hd.named_eq name

theorem InStep.contains_table_eq_false (hnew : d.lookup? i = none) :
    (d.table i.kind).contains i = false := by
  rw [hd.lookup?_eq] at hnew
  rw [Table.contains, hd.table_eq]
  refine any_eq_false.mpr fun x hx => ?_
  obtain ⟨e, he, heq⟩ := mem_map.mp (fst_mem_of_mem_zipIdx (mem_of_mem_filter hx))
  exact heq ▸ find?_eq_none.mp hnew e he

theorem InStep.get?_index_put (hname : e.name.isKey) (places : List Nat) (name : Json) :
    (d.index.put e.name places).get? name
      = if e.name == name then some places else d.index.get? name := by
  have hkey : ∀ x ∈ d.index.entries, x.1.isKey := fun x hx => hd.isKey_name _ (mem_map_of_mem hx)
  refine Table.find?_putList places _ (fun x hx h => ?_) fun x hx h h' => ?_
  · exact Json.beq_congr_of_isKey (hkey x hx) hname h
  · have hmark := Json.isKey_of_beq hname h'
    rw [Json.beq_iff_mark (hkey x hx) hmark] at h
    rw [Json.beq_iff_mark hname hmark] at h'
    exact (Json.beq_iff_mark (hkey x hx) hname).mpr (h.trans h'.symm)

theorem InStep.named_congr {name name' : Json} (hname : name.isKey) (h : name == name') :
    d.named name = d.named name' := by
  have hname' := Json.isKey_of_beq hname h
  rw [Json.beq_iff_mark hname hname'] at h
  unfold named Table.get?
  rw [find?_congr fun x hx => ?_]
  have hkey := hd.isKey_name _ (mem_map_of_mem hx)
  rw [Bool.eq_iff_iff, Json.beq_iff_mark hkey hname, Json.beq_iff_mark hkey hname', h]

/-- A new entity is entered in both stores. -/
theorem InStep.store (hnew : d.lookup? e.identity = none) (hname : e.name.isKey) :
    (d.store e).InStep := by
  have hplaces : (d.store e).identities.zipIdx
      = d.identities.zipIdx ++ [(e.identity, d.entities.length)] := by
    rw [show (d.store e).identities = d.identities ++ [e.identity] from map_append, zipIdx_append,
      identities, length_map, Nat.zero_add]
    rfl
  refine ⟨fun k => ?_, fun name => ?_, fun name hmem => ?_⟩
  · rw [hplaces, filter_append, ← hd.table_eq k]
    show (((d.tables.put e.kind _).get? k).getD .empty).entries = _
    by_cases hk : e.kind = k
    · subst hk
      have hcontains : (d.table e.kind).contains e.identity = false :=
        hd.contains_table_eq_false hnew
      rw [Table.get?_put_self, Option.getD_some, Table.put_of_contains_eq_false _ hcontains]
      simp [Entity.kind]
    · have hother : e.identity.kind ≠ k := hk
      rw [Table.get?_put_of_ne _ _ hk, filter_cons_of_neg (by simpa using hother), filter_nil,
        append_nil]
      rfl
  · rw [hplaces, filter_append, map_append, ← hd.named_eq name, filter_singleton]
    show ((d.index.put e.name _).get? name).getD [] = _ ++ map _ (bif e.name == name then _ else _)
    rw [hd.get?_index_put hname]
    by_cases h : e.name == name
    · rw [h, if_pos rfl, ← hd.named_congr hname h]
      rfl
    · rw [Bool.eq_false_iff.mpr h, if_neg Bool.false_ne_true]
      exact (append_nil _).symm
  · have hkeys := Table.keys_put d.index e.name (d.named e.name ++ [d.entities.length])
    split at hkeys
    · exact hd.isKey_name name (hkeys ▸ hmem)
    · rcases mem_append.mp (hkeys ▸ hmem) with hmem | hmem
      · exact hd.isKey_name name hmem
      · exact mem_singleton.mp hmem ▸ hname

end

/-! ### Distinct identities -/

/-- The stores are in step, and every entity has an identity of its own. -/
structure Distinct (d : Declarations) : Prop extends InStep d where
  isKey : ∀ i ∈ d.identities, i.isKey
  apart : (d.identities.map Identity.mark).Nodup

section

variable (hd : d.Distinct)
include hd

theorem Distinct.congr (h : d'.identities = d.identities) (htables : d'.tables = d.tables)
    (hindex : d'.index = d.index) : d'.Distinct :=
  ⟨hd.toInStep.congr h htables hindex, h ▸ hd.isKey, h ▸ hd.apart⟩

theorem Distinct.isKey_of_mem (he : e ∈ d.entities) : e.identity.isKey :=
  hd.isKey _ (mem_map_of_mem he)

theorem Distinct.eq_of_mark (he : e ∈ d.entities) (he' : e' ∈ d.entities)
    (h : e.identity.mark = e'.identity.mark) : e = e' := by
  have hapart := hd.apart
  rw [identities, map_map] at hapart
  exact inj_on_of_nodup_map hapart he he' h

theorem Distinct.eq_of_beq {a b : AggregateDecl} (ha : a ∈ d.allAggregates)
    (hb : b ∈ d.allAggregates) (hbeq : a.identity == b.identity) : a = b := by
  rw [mem_allAggregates] at ha hb
  have hmark := (Identity.beq_iff_mark (hd.isKey_of_mem ha) (hd.isKey_of_mem hb)).mp hbeq
  exact aggregate.inj (hd.eq_of_mark ha hb hmark)

theorem Distinct.beq_iff (he : e ∈ d.entities) (hi : i.isKey) :
    (e.identity == i) ↔ e.identity.mark = i.mark :=
  Identity.beq_iff_mark (hd.isKey_of_mem he) hi

end

theorem distinct_empty (t : Target) : (empty t).Distinct :=
  ⟨inStep_empty t, nofun, nodup_nil⟩

/-! ### Changing an entity -/

theorem identities_update
    (hf : ∀ e ∈ d.entities, e.identity == i → (f e).identity = e.identity) :
    (d.update i f).identities = d.identities := by
  show (d.entities.map _).map _ = _
  rw [map_map]
  refine map_congr_left fun e he => ?_
  show (if e.identity == i then f e else e).identity = _
  split
  · exact hf e he ‹_›
  · rfl

theorem allAggregates_update
    (hf : ∀ e ∈ d.entities, e.identity == i → (f e).aggregate? = e.aggregate?) :
    (d.update i f).allAggregates = d.allAggregates := by
  show (d.entities.map _).filterMap _ = _
  rw [filterMap_map]
  refine filterMap_congr fun e he => ?_
  show aggregate? (if e.identity == i then f e else e) = _
  split
  · exact hf e he ‹_›
  · rfl

theorem recordRecursion_spec (g : CallGraph) (d : Declarations) :
    (g.recordRecursion d).identities = d.identities ∧
      (g.recordRecursion d).allAggregates = d.allAggregates := by
  unfold CallGraph.recordRecursion
  induction g.nodes.values generalizing d with
  | nil => exact ⟨rfl, rfl⟩
  | cons n ns ih =>
    obtain ⟨hids, hall⟩ := ih _
    exact ⟨hids.trans (identities_update fun e _ _ => by cases e <;> rfl),
      hall.trans (allAggregates_update fun e _ _ => by cases e <;> rfl)⟩

/-- Marking functions leaves both stores as they are. -/
theorem stores_recordRecursion (g : CallGraph) (d : Declarations) :
    (g.recordRecursion d).tables = d.tables ∧ (g.recordRecursion d).index = d.index := by
  unfold CallGraph.recordRecursion
  induction g.nodes.values generalizing d with
  | nil => exact ⟨rfl, rfl⟩
  | cons n ns ih => exact ih _

/-! ### Adding an entity -/

/-- Adds entities in turn; one that cannot be identified is refused and changes nothing. -/
def addAll (d : Declarations) (es : List Entity) : Declarations :=
  es.foldl (fun d e => ((d.insert e).toOption.map fun r => r.2.2).getD d) d

theorem exists_add_of_insert {e stored : Entity} {isNew : Bool}
    (h : d.insert e = .ok (isNew, stored, d')) :
    e.identity.isKey ∧ d' = (d.add e).2.2 := by
  unfold insert at h
  split at h
  · exact ⟨‹_›, congrArg (·.2.2) (Except.ok.inj h).symm⟩
  · cases h

theorem identity_prepared (e : Entity) : (prepared e).identity = e.identity := by
  cases e <;> rfl

theorem identity_mergeEntity (e e' : Entity) : (mergeEntity e e').identity = e.identity := by
  unfold mergeEntity
  split
  · unfold FunctionDecl.fillFrom
    split <;> rfl
  · rfl

theorem aggregate?_mergeEntity (e e' : Entity) : (mergeEntity e e').aggregate? = e.aggregate? := by
  unfold mergeEntity
  split <;> rfl

section

variable (hd : d.Distinct)
include hd

theorem Distinct.isSome_lookup?_iff (hi : i.isKey) :
    (d.lookup? i).isSome ↔ i.mark ∈ d.identities.map Identity.mark := by
  rw [hd.lookup?_eq, find?_isSome, identities, map_map, mem_map]
  exact exists_congr fun e => and_congr_right fun he => hd.beq_iff he hi

section

variable (he : e.identity.isKey)
include he

theorem Distinct.add_eq :
    (d.add e).2.2 = if (d.lookup? e.identity).isSome
      then d.update e.identity (mergeEntity · (prepared e))
      else d.store (prepared e) := by
  unfold add
  dsimp only
  rw [identity_prepared]
  cases hlookup : d.lookup? e.identity with
  | none => rfl
  | some old =>
    rw [hd.lookup?_eq] at hlookup
    have hmem := mem_of_find?_eq_some hlookup
    have hbeq := find?_some hlookup
    have hold := (hd.beq_iff hmem he).mp hbeq
    show { d with entities := _ } = { d with entities := _ }
    congr 1
    refine map_congr_left fun x hx => ?_
    split
    · rw [hd.eq_of_mark hx hmem (((hd.beq_iff hx he).mp ‹_›).trans hold.symm)]
    · rfl

theorem Distinct.identities_add :
    (d.add e).2.2.identities = if (d.lookup? e.identity).isSome then d.identities
      else d.identities ++ [e.identity] := by
  rw [hd.add_eq he]
  split
  · exact identities_update fun x _ _ => identity_mergeEntity x (prepared e)
  · show (d.entities ++ [prepared e]).map identity = _
    rw [map_append, map_singleton, identity_prepared]
    rfl

theorem Distinct.inStep_add : (d.add e).2.2.InStep := by
  rw [hd.add_eq he]
  split
  · exact hd.toInStep.congr (identities_update fun x _ _ => identity_mergeEntity x _) rfl rfl
  · rename_i hnew
    rw [Bool.not_eq_true, Option.isSome_eq_false_iff, Option.isNone_iff_eq_none,
      ← identity_prepared] at hnew
    refine hd.toInStep.store hnew ?_
    rw [Entity.name, identity_prepared]
    exact Identity.isKey_name he

theorem Distinct.add : (d.add e).2.2.Distinct := by
  have hids := hd.identities_add he
  split at hids
  · exact ⟨hd.inStep_add he, hids ▸ hd.isKey, hids ▸ hd.apart⟩
  · rename_i hnew
    rw [hd.isSome_lookup?_iff he] at hnew
    refine ⟨hd.inStep_add he, ?_, ?_⟩ <;> rw [hids]
    · exact forall_mem_append.mpr ⟨hd.isKey, forall_mem_singleton.mpr he⟩
    · rw [map_append, map_singleton, ← concat_eq_append]
      exact hd.apart.concat hnew

theorem Distinct.allAggregates_add : d.allAggregates ⊆ (d.add e).2.2.allAggregates := by
  rw [hd.add_eq he]
  split
  · rw [allAggregates_update fun x _ _ => aggregate?_mergeEntity x (prepared e)]
    exact Subset.refl _
  · show _ ⊆ (d.entities ++ [prepared e]).filterMap aggregate?
    rw [filterMap_append]
    exact subset_append_left _ _

end

end

end Declarations

end Branchwise
