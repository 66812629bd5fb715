import Branchwise.Proofs.Data.Table
import Branchwise.Proofs.Declarations.Identity

/-!
# Adding entities

Every identity that is added is stored once, in the order of first addition, and what is stored is
what was added under it, filled in one after another.  Filling in is associative and idempotent, so
adding the same entities again changes nothing.
-/

namespace Branchwise

open List Entity Identity

namespace FunctionDecl

theorem hasBody_fillFrom (f g : FunctionDecl) :
    (f.fillFrom g).hasBody = (f.hasBody || g.hasBody) := by
  unfold fillFrom
  cases hf : f.hasBody <;> cases hg : g.hasBody <;> simp_all [hasBody, Json.isVoid]

theorem fillFrom_eq (f g : FunctionDecl) : f.fillFrom g = { f with
    isDeclarationOnly := if !f.hasBody && g.hasBody then .bool false else f.isDeclarationOnly
    endLine := if !f.hasBody && g.hasBody then g.endLine else f.endLine
    calls := if f.calls.isEmpty then g.calls else f.calls
    locals := if f.locals.isEmpty then g.locals else f.locals
    returnSites := if f.returnSites.isEmpty then g.returnSites else f.returnSites
    cyclomatic := if f.cyclomatic.eq (.int 1) then g.cyclomatic else f.cyclomatic } := by
  unfold fillFrom
  split <;> rfl

theorem ite_missing_assoc {α : Type} (p : α → Bool) (a b c : α) :
    (if p (if p a then b else a) then c else if p a then b else a)
      = if p a then (if p b then c else b) else a := by
  split <;> simp_all

theorem fillFrom_assoc (f g h : FunctionDecl) :
    (f.fillFrom g).fillFrom h = f.fillFrom (g.fillFrom h) := by
  have hcyclomatic :=
    ite_missing_assoc (Scalar.eq · (.int 1)) f.cyclomatic g.cyclomatic h.cyclomatic
  rw [fillFrom_eq (f.fillFrom g), fillFrom_eq f (g.fillFrom h), hasBody_fillFrom, hasBody_fillFrom,
    fillFrom_eq f g, fillFrom_eq g h]
  simp only [ite_missing_assoc, hcyclomatic]
  -- What is left is the end of the body, which comes from the first record that has one.
  cases f.hasBody <;> cases g.hasBody <;> cases h.hasBody <;> rfl

theorem fillFrom_self (f : FunctionDecl) : f.fillFrom f = f := by
  rw [fillFrom_eq]
  simp

instance : Std.Associative fillFrom := ⟨fillFrom_assoc⟩

theorem foldl_fillFrom_self (f : FunctionDecl) (gs : List FunctionDecl) :
    gs.foldl fillFrom (gs.foldl fillFrom f) = gs.foldl fillFrom f := by
  cases gs with
  | nil => rfl
  | cons g gs =>
    rw [foldl_cons, foldl_cons, foldl_assoc, foldl_assoc, fillFrom_assoc, fillFrom_self]

end FunctionDecl

def Entity.function? : Entity → Option FunctionDecl
  | function f => some f
  | _ => none

namespace Declarations

variable {d : Declarations} {e x : Entity} {es ks : List Entity}

/-! ## What is stored under an identity -/

theorem foldl_mergeEntity_function (f : FunctionDecl) (es : List Entity) :
    es.foldl mergeEntity (.function f)
      = .function ((es.filterMap Entity.function?).foldl FunctionDecl.fillFrom f) := by
  induction es generalizing f with
  | nil => rfl
  | cons e es ih => cases e <;> exact ih _

theorem foldl_mergeEntity_self (x : Entity) (es : List Entity) :
    es.foldl mergeEntity (es.foldl mergeEntity x) = es.foldl mergeEntity x := by
  cases x with
  | function f => rw [foldl_mergeEntity_function, foldl_mergeEntity_function,
    FunctionDecl.foldl_fillFrom_self]
  | _ => exact congrArg (es.foldl mergeEntity) (foldl_fixed' (fun _ => rfl) es)

theorem mergeEntity_self (e : Entity) : mergeEntity e e = e := by
  cases e with
  | function f => exact congrArg _ f.fillFrom_self
  | _ => rfl

theorem identity_foldl_mergeEntity (x : Entity) (es : List Entity) :
    (es.foldl mergeEntity x).identity = x.identity := by
  induction es generalizing x with
  | nil => rfl
  | cons e es ih => rw [foldl_cons, ih, identity_mergeEntity]

theorem isDeclarationOnly_mergeEntity {x e : Entity} (h : e.kind = x.kind) :
    (mergeEntity x e).isDeclarationOnly = (x.isDeclarationOnly && e.isDeclarationOnly) := by
  cases x with
  | function f =>
    obtain ⟨g, rfl⟩ := kind_eq_function_iff.mp h
    show (!(f.fillFrom g).hasBody) = _
    rw [FunctionDecl.hasBody_fillFrom, Bool.not_or]
    rfl
  | _ => rfl

theorem isDeclarationOnly_foldl_mergeEntity (x : Entity) {es : List Entity}
    (h : ∀ e ∈ es, e.kind = x.kind) : (es.foldl mergeEntity x).isDeclarationOnly
      = (x.isDeclarationOnly && es.all Entity.isDeclarationOnly) := by
  induction es generalizing x with
  | nil => exact (Bool.and_true _).symm
  | cons e es ih =>
    rw [forall_mem_cons] at h
    have hkind : (mergeEntity x e).kind = x.kind :=
      congrArg Identity.kind (identity_mergeEntity x e)
    rw [foldl_cons, ih _ (hkind ▸ h.2), isDeclarationOnly_mergeEntity h.1, all_cons, Bool.and_assoc]

/-- The entities among some that count as one with another, as they are stored. -/
def under (i : Identity) (es : List Entity) : List Entity :=
  (es.filter fun e => i == e.identity).map prepared

theorem under_concat (i : Identity) (es : List Entity) (e : Entity) :
    under i (es ++ [e]) = if i == e.identity then under i es ++ [prepared e] else under i es := by
  unfold under
  split <;> simp_all

/-! ## One entity after another -/

/-- The unit holds what was added: each identity once, in the order of first addition, with all that
was added under it. -/
structure Gathered (ks : List Entity) (d : Declarations) : Prop where
  distinct : d.Distinct
  isKey : ∀ k ∈ ks, k.identity.isKey
  identities_eq : d.identities = (ks.map identity).eraseDups
  present : ∀ k ∈ ks, k.identity.mark ∈ d.identities.map mark
  merged : ∀ x ∈ d.entities, ∃ x₀ ∈ under x.identity ks,
    x = (under x.identity ks).foldl mergeEntity x₀

theorem Distinct.contains_identities (hd : d.Distinct) (he : e.identity.isKey) :
    d.identities.contains e.identity = (d.lookup? e.identity).isSome := by
  rw [Bool.eq_iff_iff, hd.isSome_lookup?_iff he, contains_iff_exists_mem_beq, mem_map]
  exact exists_congr fun i => and_congr_right fun hi =>
    (beq_iff_mark he (hd.isKey i hi)).trans eq_comm

theorem Gathered.merged_add (h : Gathered ks d) (he : e.identity.isKey)
    (hx : x ∈ (d.add e).2.2.entities) :
    ∃ x0 ∈ under x.identity (ks ++ [e]),
      x = (under x.identity (ks ++ [e])).foldl mergeEntity x0 := by
  rw [h.distinct.add_eq he] at hx
  split at hx
  · obtain ⟨y, hy, rfl⟩ := mem_map.mp hx
    obtain ⟨y0, hmem, hy0⟩ := h.merged y hy
    refine ⟨y0, ?_⟩
    by_cases hbeq : y.identity == e.identity
    · rw [if_pos hbeq, identity_mergeEntity, under_concat, if_pos hbeq, foldl_append, ← hy0]
      exact ⟨List.mem_append_left _ hmem, rfl⟩
    · rw [if_neg hbeq, under_concat, if_neg hbeq, ← hy0]
      exact ⟨hmem, rfl⟩
  · rename_i hnew
    rw [h.distinct.isSome_lookup?_iff he] at hnew
    rcases mem_append.mp hx with hx | hx
    · have hbeq : ¬(x.identity == e.identity) := fun hbeq =>
        hnew ((h.distinct.beq_iff hx he).mp hbeq ▸
          mem_map_of_mem (mem_map_of_mem hx))
      rw [under_concat, if_neg hbeq]
      exact h.merged x hx
    · obtain rfl := mem_singleton.mp hx
      have hnone : under e.identity ks = [] := by
        rw [under, map_eq_nil_iff, filter_eq_nil_iff]
        intro k hk hbeq
        exact hnew ((beq_iff_mark he (h.isKey k hk)).mp hbeq ▸ h.present k hk)
      have hself := (beq_iff_mark he he).mpr rfl
      refine ⟨prepared e, ?_⟩
      rw [identity_prepared, under_concat, if_pos hself, hnone]
      exact ⟨List.mem_singleton_self _, (mergeEntity_self _).symm⟩

/-- Adding an entity gathers it, as a new one or into the one of the same identity. -/
theorem Gathered.add (h : Gathered ks d) (he : e.identity.isKey) :
    Gathered (ks ++ [e]) (d.add e).2.2 := by
  have hids := h.distinct.identities_add he
  refine ⟨h.distinct.add he, forall_mem_append.mpr ⟨h.isKey, forall_mem_singleton.mpr he⟩,
    ?_, forall_mem_append.mpr ⟨fun k hk => ?_, forall_mem_singleton.mpr ?_⟩,
    fun x => h.merged_add he⟩
  · rw [hids, map_append, map_singleton, Table.eraseDups_concat, ← h.identities_eq,
      h.distinct.contains_identities he]
  · rw [hids]
    split
    · exact h.present k hk
    · rw [map_append]
      exact mem_append_left _ (h.present k hk)
  · rw [hids]
    split
    · exact (h.distinct.isSome_lookup?_iff he).mp ‹_›
    · exact mem_map_of_mem (mem_append_right _ (mem_singleton_self _))

theorem Distinct.foldl_add (hd : d.Distinct) (hks : ∀ k ∈ ks, k.identity.isKey)
    (hpresent : ∀ k ∈ ks, k.identity.mark ∈ d.identities.map mark) :
    ks.foldl (fun d e => (d.add e).2.2) d = { d with
      entities := d.entities.map fun x => (under x.identity ks).foldl mergeEntity x } := by
  induction ks using reverseRecOn with
  | nil => exact congrArg (fun es => { d with entities := es }) (map_id _).symm
  | append_singleton ks k ih =>
    obtain ⟨hks, hk⟩ := forall_mem_append.mp hks
    obtain ⟨hpresent, hk'⟩ := forall_mem_append.mp hpresent
    rw [forall_mem_singleton] at hk hk'
    rw [foldl_append, ih hks hpresent, foldl_cons, foldl_nil]
    have hids : { d with entities := d.entities.map fun x : Entity =>
        (under x.identity ks).foldl mergeEntity x }.identities = d.identities := by
      rw [identities, map_map]
      exact map_congr_left fun x _ => identity_foldl_mergeEntity x _
    have hd' := hd.congr hids rfl rfl
    rw [hd'.add_eq hk, if_pos ((hd'.isSome_lookup?_iff hk).mpr (hids ▸ hk')), update, map_map]
    congr 1
    refine map_congr_left fun x _ => ?_
    show (if _ then _ else _) = _
    rw [identity_foldl_mergeEntity, under_concat]
    split
    · rw [foldl_append]
      rfl
    · rfl

/-- Entities whose identity can be a key; the others are not added. -/
def admitted (es : List Entity) : List Entity := es.filter fun e => e.identity.isKey

theorem addAll_eq (d : Declarations) (es : List Entity) :
    d.addAll es = (admitted es).foldl (fun d e => (d.add e).2.2) d := by
  rw [addAll, admitted, foldl_filter]
  congr
  funext d e
  unfold insert
  split <;> rfl

theorem gathered_addAll (t : Target) (es : List Entity) :
    Gathered (admitted es) ((empty t).addAll es) := by
  have hkeys : ∀ e ∈ admitted es, e.identity.isKey := fun e he =>
    (mem_filter.mp he).2
  rw [addAll_eq]
  generalize admitted es = ks at hkeys ⊢
  induction ks using reverseRecOn with
  | nil => exact ⟨distinct_empty t, nofun, rfl, nofun, nofun⟩
  | append_singleton ks k ih =>
    obtain ⟨hks, hk⟩ := forall_mem_append.mp hkeys
    rw [foldl_append]
    exact (ih hks).add (hk k (mem_singleton_self k))

theorem Gathered.addAll_self (h : Gathered (admitted es) d) : d.addAll es = d := by
  rw [addAll_eq, h.distinct.foldl_add h.isKey h.present]
  have hsame : (d.entities.map fun x => (under x.identity (admitted es)).foldl mergeEntity x)
      = d.entities := by
    refine (map_congr_left fun x hx => ?_).trans (map_id _)
    obtain ⟨x0, -, hx0⟩ := h.merged x hx
    generalize under x.identity (admitted es) = ks at hx0
    rw [hx0, foldl_mergeEntity_self]
    rfl
  rw [hsame]

/-- The table of a kind holds every identity of that kind that was added exactly once. -/
theorem Gathered.countP_eq_one (h : Gathered ks d) (he : e ∈ ks) :
    (d.table e.kind).keys.countP (· == e.identity) = 1 := by
  have hcount := count_eq_one_of_mem h.distinct.apart (h.present e he)
  rw [count_eq_countP, countP_map] at hcount
  rw [h.distinct.keys_table, countP_filter, ← hcount]
  refine countP_congr fun i hi => ?_
  rw [Bool.and_eq_true, decide_eq_true_iff, beq_iff_mark (h.distinct.isKey i hi) (h.isKey e he)]
  refine (and_iff_left_of_imp fun hmark => ?_).trans beq_iff_eq.symm
  exact congrArg Prod.fst hmark

theorem Gathered.eq_prepared (h : Gathered ks d) (hx : x ∈ d.entities)
    (hall : ∀ k ∈ ks, x.identity == k.identity → k = e) : x = prepared e := by
  obtain ⟨x0, hmem, hx0⟩ := h.merged x hx
  have hsame : ∀ y ∈ under x.identity ks, y = prepared e := by
    refine forall_mem_map.mpr fun k hk => ?_
    obtain ⟨hk, hbeq⟩ := mem_filter.mp hk
    rw [hall k hk hbeq]
  rw [hx0, hsame x0 hmem]
  generalize under x.identity ks = es at hsame
  induction es with
  | nil => rfl
  | cons y es ih =>
    obtain ⟨hy, hes⟩ := forall_mem_cons.mp hsame
    rw [foldl_cons, hy, mergeEntity_self, ih hes]

theorem isDeclarationOnly_prepared (e : Entity) :
    (prepared e).isDeclarationOnly = e.isDeclarationOnly := by
  cases e <;> rfl

theorem Gathered.isDeclarationOnly_eq (h : Gathered ks d) (hx : x ∈ d.entities) :
    (!x.isDeclarationOnly) = ks.any fun e => x.identity == e.identity && !e.isDeclarationOnly := by
  obtain ⟨x0, hmem, hx0⟩ := h.merged x hx
  have hkinds : ∀ e ∈ under x.identity ks, e.kind = x.kind := by
    intro e he
    obtain ⟨k, hk, rfl⟩ := mem_map.mp he
    have hk' := mem_filter.mp hk
    have hmark := (beq_iff_mark (h.distinct.isKey_of_mem hx) (h.isKey k hk'.1)).mp hk'.2
    exact (congrArg Identity.kind (identity_prepared k)).trans (congrArg Prod.fst hmark).symm
  have hself : x.isDeclarationOnly = (under x.identity ks).all Entity.isDeclarationOnly := by
    conv_lhs => rw [hx0]
    rw [isDeclarationOnly_foldl_mergeEntity x0 fun e he =>
      (hkinds e he).trans (hkinds x0 hmem).symm]
    by_cases hall : (under x.identity ks).all Entity.isDeclarationOnly
    · rw [hall, Bool.and_true]
      exact all_eq_true.mp hall x0 hmem
    · rw [Bool.eq_false_iff.mpr hall, Bool.and_false]
  rw [hself, not_all_eq_any_not, under, any_map, any_filter]
  simp only [Function.comp_def, isDeclarationOnly_prepared]

theorem Gathered.isDeclarationOnly_lookup? (h : Gathered ks d) {f : FunctionDecl}
    (hmem : .function f ∈ ks) (hf : f.hasBody) :
    ∃ x, d.lookup? (function f).identity = some x ∧ x.isDeclarationOnly = false := by
  have hsome := (h.distinct.isSome_lookup?_iff (h.isKey _ hmem)).mpr (h.present _ hmem)
  obtain ⟨x, hx⟩ := Option.isSome_iff_exists.mp hsome
  rw [h.distinct.lookup?_eq] at hx
  have hbeq := find?_some hx
  refine ⟨x, h.distinct.lookup?_eq _ ▸ hx, ?_⟩
  rw [← Bool.not_eq_true', h.isDeclarationOnly_eq (mem_of_find?_eq_some hx), any_eq_true]
  exact ⟨_, hmem, by simp [hbeq, Entity.isDeclarationOnly, hf]⟩

/-- **The tables and the index stay in step.**  Whatever entities are added in whatever order, the
table of each kind holds each identity of that kind once, in the order of first addition, and
nothing else, at the place of an entity that has it.  The index lists under a name exactly the
places that the tables hold for identities of that name, once each and in the order of first
addition.  A function that was added with a body is defined, and adding the same entities again
changes nothing. -/
theorem addAll_exact (t : Target) (es : List Entity) : let d := (empty t).addAll es
    let ids := ((admitted es).map Entity.identity).eraseDups
    (∀ e ∈ admitted es, (d.table e.kind).keys.countP (· == e.identity) = 1) ∧
    (∀ k, (d.table k).keys = ids.filter fun i => i.kind = k) ∧
    (∀ k i place, (i, place) ∈ (d.table k).entries →
      ∃ x, d.entities[place]? = some x ∧ x.identity = i) ∧
    (∀ name place, place ∈ d.named name ↔
      ∃ k i, (i, place) ∈ (d.table k).entries ∧ (i.name == name) = true) ∧
    (∀ name, (d.named name).Pairwise (· < ·) ∧
      (d.findAll name).map Entity.identity = ids.filter fun i => i.name == name) ∧
    (∀ f, .function f ∈ admitted es → f.hasBody = true →
      ∃ x, d.lookup? (Entity.function f).identity = some x ∧ x.isDeclarationOnly = false) ∧
    d.addAll es = d := by
  intro d ids
  have h : Gathered (admitted es) d := gathered_addAll t es
  have hd := h.distinct.toInStep
  refine ⟨fun e he => h.countP_eq_one he, fun k => ?_, fun k i place => hd.exists_entity,
    fun name place => hd.mem_named_iff, fun name => ⟨hd.pairwise_named name, ?_⟩,
    fun f => h.isDeclarationOnly_lookup?, h.addAll_self⟩
  · rw [hd.keys_table, h.identities_eq]
  · show _ = List.filter _ ((admitted es).map identity).eraseDups
    rw [hd.findAll_eq, ← h.identities_eq, identities, filter_map]
    rfl

end Declarations

end Branchwise
