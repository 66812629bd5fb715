import Branchwise.Proofs.Domain.Intersection
import Branchwise.Proofs.Layout.Failures

/-!
# Aggregates that contain themselves

Where the types of all members are known, an aggregate has no layout exactly if containment by value
leads from it into a cycle.  Computing a layout goes down along containment, so it fails only where
it comes back to an aggregate it is inside of.
-/

namespace Branchwise.Declarations

open Laying List Json

variable {d : Declarations} {aliases : Option AliasTable} {a b : AggregateDecl}
  {outer : List AggregateDecl}

/-! ## Containment -/

/-- A member of an aggregate is another by value, alone or in an array, perhaps under an alias. -/
def Contains (d : Declarations) (aliases : Option AliasTable) (a b : AggregateDecl) : Prop :=
  ∃ m ∈ a.members, ∃ s r, m.type.spelling = .ok s ∧ d.resolve aliases s = .ok r ∧
    r.isPointer = false ∧ r.aggregate = some b

def Loops (d : Declarations) (aliases : Option AliasTable) (a : AggregateDecl) : Prop :=
  ∃ b, Relation.ReflTransGen (d.Contains aliases) a b ∧ Relation.TransGen (d.Contains aliases) b b

/-- No member declares its size, and the type of each is a pointer, a base type that is not void, an
enumeration over such a type or an aggregate. -/
structure HasKnownMembers (d : Declarations) (aliases : Option AliasTable) : Prop where
  unsized : ∀ a ∈ d.allAggregates, ∀ m ∈ a.members, m.size.isNull
  known : ∀ a ∈ d.allAggregates, ∀ m ∈ a.members, ∃ s r, m.type.spelling = .ok s ∧
    d.resolve aliases s = .ok r ∧ (HasOwnSize r ∨ r.aggregate.isSome)

instance (r : ResolvedType) : Decidable (HasOwnSize r) :=
  decidable_of_iff (r.isPointer ∨ r.aggregate = none ∧ (r.base.any (· ≠ .void))) (by
    simp [HasOwnSize, Option.any_eq_true])

def isKnown (d : Declarations) (aliases : Option AliasTable) (m : MemberDecl) : Bool :=
  match m.type.spelling >>= d.resolve aliases with
  | .ok r => HasOwnSize r ∨ r.aggregate.isSome
  | .error _ => false

theorem isKnown_iff {m : MemberDecl} :
    d.isKnown aliases m ↔ ∃ s r, m.type.spelling = .ok s ∧ d.resolve aliases s = .ok r ∧
      (HasOwnSize r ∨ r.aggregate.isSome) := by
  unfold isKnown
  constructor
  · intro h
    split at h
    · rename_i r hr
      obtain ⟨s, hs, hr⟩ := bind_eq_ok hr
      exact ⟨s, r, hs, hr, of_decide_eq_true h⟩
    · cases h
  · rintro ⟨s, r, hs, hr, h⟩
    rw [hs, ok_bind, hr]
    exact decide_eq_true h

instance : Decidable (d.HasKnownMembers aliases) :=
  decidable_of_iff (∀ a ∈ d.allAggregates, ∀ m ∈ a.members,
    m.size.isNull ∧ d.isKnown aliases m)
    ⟨fun h => ⟨fun a ha m hm => (h a ha m hm).1, fun a ha m hm => isKnown_iff.mp (h a ha m hm).2⟩,
      fun h a ha m hm => ⟨h.unsized a ha m hm, isKnown_iff.mpr (h.known a ha m hm)⟩⟩

def HasUniqueNames (d : Declarations) : Prop :=
  (d.allAggregates.map AggregateDecl.name ++ d.enums.map EnumDecl.name).Nodup

theorem Contains.mem (h : d.Contains aliases a b) : b ∈ d.allAggregates := by
  obtain ⟨m, -, s, r, -, hr, -, hb⟩ := h
  exact mem_of_resolve hr hb

theorem Loops.of_contains (h : d.Contains aliases a b) (hb : d.Loops aliases b) :
    d.Loops aliases a := by
  obtain ⟨x, hbx, hx⟩ := hb
  exact ⟨x, .head h hbx, hx⟩

theorem Loops.exists_contains (h : d.Loops aliases a) :
    ∃ b, d.Contains aliases a b ∧ d.Loops aliases b := by
  obtain ⟨x, hax, hx⟩ := h
  obtain ⟨b, hab, hbx⟩ := Relation.TransGen.head'_iff.mp (Relation.TransGen.trans_right hax hx)
  exact ⟨b, hab, x, hbx, hx⟩

theorem HasUniqueNames.eq_of_name (h : d.HasUniqueNames) (ha : a ∈ d.allAggregates)
    (hb : b ∈ d.allAggregates) (hname : a.name = b.name) : a = b :=
  inj_on_of_nodup_map (nodup_append.mp h).1 ha hb hname

theorem isText_name (hd : d.IsTyped) (ha : a ∈ d.allAggregates) : a.name.isText :=
  AggregateDecl.IsTyped.name (hd.entities _ (mem_allAggregates.mp ha))

theorem isTyped_member (hd : d.IsTyped) (ha : a ∈ d.allAggregates) : ∀ m ∈ a.members, m.IsTyped :=
  AggregateDecl.IsTyped.members (hd.entities _ (mem_allAggregates.mp ha))

/-! ## The size of a contained aggregate -/

section Extent

variable {I : LayoutCache → Prop} {P : Error → Prop} {inner : AggregateDecl → Laying Layout}
  {Q : Layout → Prop} {m : MemberDecl} {r : ResolvedType}

theorem settles_elementExtent_of_aggregate {R : Json × Json → Prop} (hpointer : r.isPointer = false)
    (hb : r.aggregate = some b) (hinner : Settles I Q P (inner b))
    (hQ : ∀ l, Q l → R (.ofScalar l.size, .ofScalar l.alignment)) :
    Settles I R P (d.elementExtent inner a m r) := by
  unfold elementExtent
  rw [hpointer, hb]
  exact hinner.bind fun l hl => settles_pure (hQ l hl)

theorem settles_memberShape_of_known (hd : d.IsTyped) (hm : m.IsTyped) {s : String}
    (hs : m.type.spelling = .ok s) (hr : d.resolve aliases s = .ok r)
    (hknown : HasOwnSize r ∨ r.aggregate.isSome)
    (hinner : ∀ b, r.isPointer = false → r.aggregate = some b →
      Settles I Layout.IsWhole P (inner b)) :
    Settles I MemberShape.IsWhole P (d.memberShape aliases inner a m) := by
  have hextent : Settles I (fun x => x.1.isWhole ∧ x.2.isWhole) P
      (d.elementExtent inner a m r) := by
    by_cases hown : HasOwnSize r
    · exact settles_elementExtent hd (.inl hown)
    · have hpointer : r.isPointer = false := Bool.eq_false_iff.mpr fun h => hown (.inl h)
      obtain ⟨b, hb⟩ := Option.isSome_iff_exists.mp (hknown.resolve_left hown)
      refine settles_elementExtent_of_aggregate hpointer hb (hinner b hpointer hb) fun l hl => ?_
      rw [isWhole_ofScalar, isWhole_ofScalar]
      exact ⟨hl.size, hl.alignment⟩
  refine settles_memberShape hd hm fun _ => ?_
  refine settles_resolvedShape hm hs (.of_exists ⟨r, hr, trivial⟩) fun r' hr' => ?_
  obtain rfl : r = r' := Except.ok.inj (hr.symm.trans hr')
  exact hextent

theorem settles_placeMembers_of_unlaid (hb : d.Embeds aliases a b)
    (hinner : ∀ b ∈ d.allAggregates, Preserves I (inner b))
    (hnone : Settles I (fun _ => False) (fun _ => True) (inner b)) :
    Settles I (fun _ => False) (fun _ => True) (d.placeMembers aliases inner a) := by
  have hshapes : ∀ m ∈ a.members, Preserves I (d.memberShape aliases inner a m) :=
    fun m _ => preserves_memberShape hinner m
  refine fun c hc => ⟨preserves_placeMembers hinner c hc, fun l hl => ?_, fun _ _ => trivial⟩
  obtain ⟨m, hm, hsized⟩ := hb
  obtain ⟨ss, hss, -⟩ := exists_measure (Prod.ext hl rfl)
  obtain ⟨s, c1, c2, hshape, hc1, -⟩ := exists_run_of_mem hshapes hshapes hss hc hm
  obtain ⟨l', hl'⟩ := exists_inner_of_memberShape hsized hshape
  exact (hnone c1 hc1).2.of_eq_ok l' (by rw [hl'])

end Extent

/-! ## A layout that fails -/

/-- The aggregates that a layout is inside of: distinct ones of the unit that contain it. -/
structure Enclose (d : Declarations) (aliases : Option AliasTable) (outer : List AggregateDecl)
    (a : AggregateDecl) : Prop where
  mem : ∀ b ∈ outer, b ∈ d.allAggregates
  nodup : outer.Nodup
  contains : ∀ b ∈ outer, Relation.TransGen (d.Contains aliases) b a

theorem Enclose.concat (h : d.Enclose aliases outer a)
    (ha : a ∈ d.allAggregates) (hnew : a ∉ outer) (hab : d.Contains aliases a b) :
    d.Enclose aliases (outer ++ [a]) b := by
  refine ⟨List.forall_mem_append.mpr ⟨h.mem, forall_mem_singleton.mpr ha⟩, ?_,
    forall_mem_append.mpr ⟨fun x hx => (h.contains x hx).tail hab,
      forall_mem_singleton.mpr (.single hab)⟩⟩
  exact nodup_append.mpr ⟨h.nodup, nodup_singleton a, fun x hx y hy hxy =>
    hnew (mem_singleton.mp hy ▸ hxy ▸ hx)⟩

theorem Enclose.contains_name_iff (h : d.Enclose aliases outer a)
    (hd : d.IsTyped) (hunique : d.HasUniqueNames) (ha : a ∈ d.allAggregates) :
    (outer.map AggregateDecl.name).contains a.name ↔ a ∈ outer := by
  have htext {b : AggregateDecl} (hb : b ∈ d.allAggregates) : b.name.IsText :=
    exists_str_of_isText (isText_name hd hb)
  rw [Table.contains_iff_of_separates separates_isText
    (forall_mem_map.mpr fun b hb => htext (h.mem b hb)) (htext ha), mem_map]
  constructor
  · rintro ⟨b, hb, hname⟩
    exact hunique.eq_of_name (h.mem b hb) ha hname ▸ hb
  · exact fun hmem => ⟨a, hmem, rfl⟩

/-- Where the types of all members are known, a layout fails for a reason in the declarations, and
only if containment leads into a cycle. -/
theorem settles_layoutInside_of_known (hd : d.IsTyped) (hunique : d.HasUniqueNames)
    (hmembers : d.HasKnownMembers aliases) (fuel : Nat)
    (houter : d.Enclose aliases outer a) (hfuel : d.allAggregates.length < fuel + outer.length)
    (ha : a ∈ d.allAggregates) :
    Settles AreWhole Layout.IsWhole
      (fun e => (∃ fault, e = .model fault) ∧ d.Loops aliases a)
      (d.layoutInside aliases fuel (outer.map AggregateDecl.name) a) := by
  -- Every level goes into one more of the aggregates of the unit.
  induction fuel generalizing outer a with
  | zero =>
    have hle := (houter.nodup.subperm houter.mem).length_le
    omega
  | succ fuel ih =>
    have htexts : ∀ n ∈ outer.map AggregateDecl.name, n.isText :=
      forall_mem_map.mpr fun b hb => isText_name hd (houter.mem b hb)
    have hcontains := houter.contains_name_iff hd hunique ha
    refine settles_layoutInside_succ (fun c l hc hget => hc l (Table.mem_values_of_get? hget))
      (fun h => ?_) (fun h => ?_) fun c l hc hl => hc.put hl
    · exact ⟨exists_containsItself htexts (isText_name hd ha), a, .refl,
        houter.contains a (hcontains.mp h)⟩
    · have hnew : a ∉ outer := fun hmem => h (hcontains.mpr hmem)
      refine settles_placeMembers (isTyped_member hd ha) fun m hm => ?_
      obtain ⟨s, r, hs, hr, hknown⟩ := hmembers.known a ha m hm
      refine settles_memberShape_of_known hd (isTyped_member hd ha m hm) hs hr hknown ?_
      intro b hpointer hb
      have hab : d.Contains aliases a b := ⟨m, hm, s, r, hs, hr, hpointer, hb⟩
      have hlength : d.allAggregates.length < fuel + (outer ++ [a]).length := by
        rw [length_append, length_singleton]
        omega
      have hinner := ih (houter.concat ha hnew hab) hlength hab.mem
      rw [map_append] at hinner
      exact hinner.imp (fun _ hl => hl) fun e he => ⟨he.1, he.2.of_contains hab⟩

/-! ## A layout that is found -/

/-- No layout is kept of an aggregate from which containment leads into a cycle. -/
def Grounded (d : Declarations) (aliases : Option AliasTable) (c : LayoutCache) : Prop :=
  ∀ b ∈ d.allAggregates, d.Loops aliases b → Lacks b c

theorem settles_layoutInside_of_grounded (hdistinct : d.Distinct)
    (hmembers : d.HasKnownMembers aliases) (fuel : Nat) (inside : List Json)
    (ha : a ∈ d.allAggregates) :
    Settles (d.Grounded aliases) (fun _ => ¬d.Loops aliases a) (fun _ => True)
      (d.layoutInside aliases fuel inside a) := by
  induction fuel generalizing inside a with
  | zero => exact settles_throw trivial
  | succ fuel ih =>
    have hinner : ∀ b ∈ d.allAggregates, Preserves (d.Grounded aliases)
        (d.layoutInside aliases fuel (inside ++ [a.name]) b) :=
      fun b hb c hc => (ih (inside ++ [a.name]) hb c hc).1
    refine settles_layoutInside_succ (fun c l hc hget hloops => ?_) (fun _ => trivial) (fun _ => ?_)
      fun c l hc hl b hb hloops => (hc b hb hloops).put (fun hbeq => ?_) l
    · cases (lacks_iff.mp (hc a ha hloops)).symm.trans hget
    · by_cases hloops : d.Loops aliases a
      · obtain ⟨b, hab, hb⟩ := hloops.exists_contains
        have hnone : Settles (d.Grounded aliases) (fun _ => False) (fun _ => True)
            (d.layoutInside aliases fuel (inside ++ [a.name]) b) :=
          (ih (inside ++ [a.name]) hab.mem).imp (fun _ h => h hb) fun _ h => h
        obtain ⟨m, hm, htype⟩ := hab
        have hembeds : d.Embeds aliases a b := ⟨m, hm, hmembers.unsized a ha m hm, htype⟩
        exact (settles_placeMembers_of_unlaid hembeds hinner hnone).imp (fun _ h => h.elim)
          fun _ h => h
      · exact (preserves_placeMembers hinner).settles.imp (fun _ _ => hloops) fun _ h => h
    · exact hl (hdistinct.eq_of_beq ha hb hbeq ▸ hloops)

/-- Where the types of all members are known and no layout is kept yet, an aggregate has a layout
exactly if containment does not lead from it into a cycle; otherwise the reason is in the
declarations. -/
theorem layout_fails_iff_loops (hd : d.Reached) (hfresh : d.layouts = .empty) (htyped : d.IsTyped)
    (hunique : d.HasUniqueNames) (hmembers : d.HasKnownMembers aliases)
    (ha : a ∈ d.allAggregates) :
    (∃ fault, (d.runLaying (d.layout aliases a)).1 = .error (.model fault)) ↔
      d.Loops aliases a := by
  have hwhole : AreWhole d.layouts := by
    rw [hfresh]
    exact fun l hl => absurd hl not_mem_nil
  have hgrounded : d.Grounded aliases d.layouts := by
    rw [hfresh]
    exact fun b _ _ x hx => absurd hx not_mem_nil
  have houter : d.Enclose aliases [] a := ⟨nofun, nodup_nil, nofun⟩
  have hfail := (settles_layoutInside_of_known htyped hunique hmembers d.containmentBound houter
    (Nat.lt_succ_self _) ha d.layouts hwhole).2
  have hfound := (settles_layoutInside_of_grounded hd.kept.toDistinct hmembers d.containmentBound []
    ha d.layouts hgrounded).2
  constructor
  · rintro ⟨fault, hfault⟩
    exact (hfail.of_eq_error _ hfault).2
  · intro hloops
    cases hrun : (d.runLaying (d.layout aliases a)).1 with
    | ok l => exact absurd hloops (hfound.of_eq_ok l hrun)
    | error e =>
      obtain ⟨fault, rfl⟩ := (hfail.of_eq_error e hrun).1
      exact ⟨fault, rfl⟩

end Branchwise.Declarations
