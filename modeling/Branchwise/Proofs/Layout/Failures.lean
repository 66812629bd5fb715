import Branchwise.Proofs.Declarations.Typed
import Branchwise.Proofs.Layout.History

/-!
# How computing a layout can fail

In a well-typed unit all sizes are whole numbers, and placing members by whole numbers never fails.
What can fail is the search for the size of a member: for a reason that lies in the declarations, at
a cycle of aliases, or at an array extent.  Advice on a layout also fails where it would have to
write a number that is too long.
-/

namespace Branchwise

open List Layout Scalar

/-! ## Whole numbers -/

section Whole

variable {P : Error → Prop} {a b : Scalar} {j k : Json}

theorem Scalar.exists_int_of_isWhole (h : a.isWhole) : ∃ n, a.int? = some n :=
  Option.isSome_iff_exists.mp h

theorem Scalar.isWhole_max (ha : a.isWhole) (hb : b.isWhole) :
    (a.max b).isWhole := by
  obtain ⟨m, hm⟩ := exists_int_of_isWhole ha
  obtain ⟨n, hn⟩ := exists_int_of_isWhole hb
  exact Option.isSome_iff_exists.mpr ⟨_, int?_max hm hn⟩

theorem Json.isWhole_ofScalar (a : Scalar) : (ofScalar a).isWhole = a.isWhole := by
  rw [isWhole, whole?_ofScalar]
  rfl

theorem Json.isVoid_of_isNull (hj : j.isNull) : j.isVoid := by
  cases j with
  | null => rfl
  | _ => cases hj

theorem Json.isWhole_of_not_isNull (hj : j.isNull ∨ j.isWhole)
    (hne : j.isNull = false) : j.isWhole :=
  hj.resolve_left (Bool.eq_false_iff.mp hne)

theorem ends_asScalar (hj : j.isWhole) : Ends (·.isWhole) P j.asScalar := by
  obtain ⟨n, hn⟩ := Option.isSome_iff_exists.mp hj
  obtain ⟨s, hs, hint⟩ := Json.exists_asScalar hn
  exact .of_exists ⟨s, hs, Option.isSome_iff_exists.mpr ⟨n, hint⟩⟩

theorem Json.exists_less (hj : j.isWhole) (hk : k.isWhole) : ∃ b, j.less k = .ok b := by
  cases j <;> cases hj <;> cases k <;> cases hk <;> exact ⟨_, rfl⟩

theorem ends_larger (hj : j.isWhole) (hk : k.isWhole) :
    Ends (·.isWhole) P (j.larger k) := by
  obtain ⟨b, hb⟩ := Json.exists_less hj hk
  rw [Json.larger, hb]
  cases b with
  | true => exact .ok hk
  | false => exact .ok hj

theorem ends_smaller (hj : j.isWhole) (hk : k.isWhole) :
    Ends (·.isWhole) P (j.smaller k) := by
  obtain ⟨b, hb⟩ := Json.exists_less hk hj
  rw [Json.smaller, hb]
  cases b with
  | true => exact .ok hk
  | false => exact .ok hj

namespace Layout

theorem ends_plus (ha : a.isWhole) (hb : b.isWhole) :
    Ends (·.isWhole) P (plus a b) := by
  obtain ⟨m, hm⟩ := exists_int_of_isWhole ha
  obtain ⟨n, hn⟩ := exists_int_of_isWhole hb
  exact .of_exists ⟨_, plus_of_int? hm hn, rfl⟩

theorem ends_minus (ha : a.isWhole) (hb : b.isWhole) :
    Ends (·.isWhole) P (minus a b) := by
  obtain ⟨m, hm⟩ := exists_int_of_isWhole ha
  obtain ⟨n, hn⟩ := exists_int_of_isWhole hb
  exact .of_exists ⟨_, minus_of_int? hm hn, rfl⟩

theorem ends_times (ha : a.isWhole) (hb : b.isWhole) :
    Ends (·.isWhole) P (times a b) := by
  obtain ⟨m, hm⟩ := exists_int_of_isWhole ha
  obtain ⟨n, hn⟩ := exists_int_of_isWhole hb
  exact .of_exists ⟨_, times_of_int? hm hn, rfl⟩

theorem ends_alignUp (ha : a.isWhole) (hb : b.isWhole) :
    Ends (·.isWhole) P (alignUp a b) := by
  obtain ⟨m, hm⟩ := exists_int_of_isWhole ha
  obtain ⟨n, hn⟩ := exists_int_of_isWhole hb
  by_cases h : n ≤ 1
  · have hle : b.le (.int 1) := by
      rw [le_of_int? hn rfl]
      exact decide_eq_true h
    rw [alignUp, hle]
    exact .ok ha
  · obtain ⟨s, hs, hint⟩ := exists_alignUp hm hn (by omega)
    exact .of_exists ⟨s, hs, Option.isSome_iff_exists.mpr ⟨_, hint⟩⟩

end Layout

end Whole

/-! ## Placing members -/

structure MemberShape.IsWhole (s : MemberShape) : Prop where
  size : s.size.isWhole
  alignment : s.alignment.isWhole
  count : s.count.isWhole

namespace Layout

structure OpenUnit.IsWhole (u : OpenUnit) : Prop where
  start : u.start.isWhole
  size : u.size.isWhole
  bitsUsed : u.bitsUsed.isWhole

structure Placement.IsWhole (p : Placement) : Prop where
  offset : p.offset.isWhole
  alignment : p.alignment.isWhole
  dataBytes : p.dataBytes.isWhole
  unit : ∀ u, p.unit = some u → u.IsWhole

structure Overlay.IsWhole (o : Overlay) : Prop where
  alignment : o.alignment.isWhole
  largest : o.largest.isWhole

variable {P : Error → Prop} {m : MemberDecl} {s : MemberShape} {alignment : Scalar}

theorem ends_bytes (hs : s.IsWhole) : Ends (·.isWhole) P s.bytes :=
  (ends_asScalar hs.size).bind fun _ hsize => (ends_asScalar hs.count).bind fun _ hcount =>
    ends_times hsize hcount

section Struct

variable {p : Placement}

section

variable (hp : p.IsWhole)
include hp

theorem ends_plain (hs : s.IsWhole) (halign : alignment.isWhole) :
    Ends Placement.IsWhole P (p.plain m s alignment) :=
  (ends_alignUp hp.offset halign).bind fun _ hoffset => (ends_bytes hs).bind fun _ hbytes =>
    (ends_plus hoffset hbytes).bind fun _ hnext => (ends_plus hp.dataBytes hbytes).bind
      fun _ hdata => .ok ⟨hnext, hp.alignment, hdata, nofun⟩

theorem ends_openUnit (hs : s.IsWhole) (halign : alignment.isWhole) (hm : m.bitWidth.isWhole) :
    Ends Placement.IsWhole P (p.openUnit m s alignment) :=
  (ends_alignUp hp.offset halign).bind fun _ hoffset => (ends_asScalar hs.size).bind
    fun _ hsize => (ends_plus hoffset hsize).bind fun _ hnext =>
      (ends_plus hp.dataBytes hsize).bind fun _ hdata =>
        .ok ⟨hnext, hp.alignment, hdata, fun _ hu => Option.some.inj hu ▸ ⟨hoffset, hsize, hm⟩⟩

theorem ends_shareUnit (hs : s.IsWhole) (halign : alignment.isWhole) (hm : m.bitWidth.isWhole)
    {u : OpenUnit} (hu : u.IsWhole) : Ends Placement.IsWhole P (p.shareUnit u m s alignment) := by
  refine (ends_asScalar hu.bitsUsed).bind fun used hused => (ends_asScalar hm).bind
    fun width hwidth => (ends_plus hused hwidth).bind fun after hafter =>
      (ends_times hu.size rfl).bind fun room _ => ?_
  split
  · refine .ok ⟨hp.offset, hp.alignment, hp.dataBytes, fun u' hu' => Option.some.inj hu' ▸ ?_⟩
    exact ⟨hu.start, hu.size, (Json.isWhole_ofScalar after).trans hafter⟩
  · exact ends_openUnit hp hs halign hm

theorem ends_bitField (hs : s.IsWhole) (halign : alignment.isWhole) (hm : m.bitWidth.isWhole) :
    Ends Placement.IsWhole P (p.bitField m s alignment) := by
  unfold Placement.bitField
  split
  · exact (ends_alignUp hp.offset halign).bind fun _ hoffset =>
      .ok ⟨hoffset, hp.alignment, hp.dataBytes, nofun⟩
  · split
    · rename_i u hu
      exact ends_shareUnit hp hs halign hm (hp.unit u (Option.eq_some_of_filter_eq_some hu))
    · exact ends_openUnit hp hs halign hm

theorem ends_place (hm : m.IsTyped) (hs : s.IsWhole) : Ends Placement.IsWhole P (p.place m s) := by
  refine (ends_asScalar hs.alignment).bind fun alignment halign => ?_
  have hraised : Placement.IsWhole { p with alignment := p.alignment.max alignment } :=
    ⟨hp.offset, isWhole_max hp.alignment halign, hp.dataBytes, hp.unit⟩
  split
  · rename_i hbit
    refine ends_bitField hraised hs halign (Json.isWhole_of_not_isNull hm.bitWidth ?_)
    simpa [MemberDecl.isBitField] using hbit
  · exact ends_plain hraised hs halign

theorem ends_toLayout_placement : Ends IsWhole P p.toLayout :=
  (ends_alignUp hp.offset hp.alignment).bind fun _ hsize =>
    (ends_minus hsize hp.dataBytes).bind fun _ hpadding => .ok ⟨hsize, hp.alignment, hpadding⟩

end

theorem isWhole_start_placement : Placement.start.IsWhole := ⟨rfl, rfl, rfl, nofun⟩

end Struct

section Union

variable {o : Overlay}

theorem ends_place_overlay (ho : o.IsWhole) (hs : s.IsWhole) :
    Ends Overlay.IsWhole P (o.place m s) :=
  (ends_asScalar hs.alignment).bind fun _ halign => (ends_bytes hs).bind fun _ hbytes =>
    .ok ⟨Scalar.isWhole_max ho.alignment halign, isWhole_max ho.largest hbytes⟩

theorem ends_toLayout_overlay (ho : o.IsWhole) : Ends IsWhole P o.toLayout :=
  (ends_alignUp ho.largest ho.alignment).bind fun _ hsize =>
    (ends_minus hsize ho.largest).bind fun _ hpadding => .ok ⟨hsize, ho.alignment, hpadding⟩

theorem isWhole_start_overlay : Overlay.start.IsWhole := ⟨rfl, rfl⟩

end Union

end Layout

open Laying

/-! ## Sizes of members -/

namespace Declarations

/-- The numbers that advice on a layout of an aggregate writes: its size, its padding, and what
another order of the members saves. -/
inductive Advises (d : Declarations) (aliases : Option AliasTable) (a : AggregateDecl)
    (l : Layout) : Scalar → Prop
  | size : Advises d aliases a l l.size
  | padding : Advises d aliases a l l.padding
  | saved {better : Layout} {s : Scalar} {c : LayoutCache}
      (hbetter : ((d.placeMembers aliases (d.layoutInside aliases d.containmentBound [a.name])
        { a with members := byAlignment l a.members }).run.run c).1 = .ok better)
      (hs : minus l.size better.size = .ok s) : Advises d aliases a l s

inductive Escapes (d : Declarations) (aliases : Option AliasTable) : Error → Prop
  | cycle {a : AggregateDecl} {m : MemberDecl} {s : String} {chain : List String}
      (ha : a ∈ d.allAggregates) (hm : m ∈ a.members) (hsize : m.size.isNull)
      (hs : m.type.spelling = .ok s) (h : d.resolve aliases s = .error (.aliasCycle chain)) :
      Escapes d aliases (.aliasCycle chain)
  | extent {e : Error} (h : d.Unreadable aliases e) : Escapes d aliases e
  /-- Advice on an aggregate would have to write a number of too many digits. -/
  | unwritable {a : AggregateDecl} {l : Layout} {n : Scalar} {c : LayoutCache}
      (ha : a ∈ d.allAggregates) (hl : ((d.layout aliases a).run.run c).1 = .ok l)
      (hn : d.Advises aliases a l n) (h : n.write = .error (.longInteger none)) :
      Escapes d aliases (.longInteger none)

/-- The errors of computing a layout: a reason in the declarations, or one that escapes. -/
def Unlaid (d : Declarations) (aliases : Option AliasTable) (e : Error) : Prop :=
  (∃ fault, e = .model fault) ∨ d.Escapes aliases e

variable {d : Declarations} {aliases : Option AliasTable} {I : LayoutCache → Prop}
  {P : Error → Prop} {inner : AggregateDecl → Laying Layout} {a : AggregateDecl} {m : MemberDecl}
  {inside : List Json} {b : AggregateDecl} {c : LayoutCache}

theorem isWhole_declaredCount (hm : m.IsTyped) : (declaredCount m).isWhole := by
  unfold declaredCount Json.orElse
  split
  · rfl
  · rename_i hvoid
    exact hm.arrayLength.resolve_left fun hnull => hvoid (Json.isVoid_of_isNull hnull)

theorem ends_declaredShape (hd : d.IsTyped) (hm : m.IsTyped) (hsize : m.size.isNull = false) :
    Ends MemberShape.IsWhole P (d.declaredShape m) := by
  have hwhole := Json.isWhole_of_not_isNull hm.size hsize
  have hcount := isWhole_declaredCount hm
  unfold declaredShape
  split
  · exact (ends_larger hwhole rfl).bind fun _ h =>
      (ends_smaller h hd.target.maxAlignment).bind fun _ halign => .ok ⟨hwhole, halign, hcount⟩
  · rename_i hvoid
    have halign := hm.alignment.resolve_left fun hnull => hvoid (Json.isVoid_of_isNull hnull)
    exact .ok ⟨hwhole, halign, hcount⟩

theorem ends_multiplied {count : Json} (h : count.isWhole) (elements : Nat) :
    Ends (·.isWhole) P (multiplied count elements) := by
  unfold multiplied
  split
  · cases h
  · cases h
  · exact (ends_asScalar h).bind fun _ hcount => (ends_times hcount rfl).bind fun x hx =>
      .ok ((Json.isWhole_ofScalar x).trans hx)

theorem isWhole_size (hd : d.IsTyped) (b : BaseType) : (b.size d.target).isWhole := by
  cases b with
  | long | ulong => exact hd.target.longSize
  | pointer => exact hd.target.pointerSize
  | longdouble => exact hd.target.longDoubleSize
  | _ => rfl

theorem ends_alignment (hd : d.IsTyped) (b : BaseType) :
    Ends (·.isWhole) P (b.alignment d.target) :=
  (ends_smaller (isWhole_size hd b) hd.target.maxAlignment).bind fun _ hnatural =>
    (ends_asScalar hnatural).bind fun _ h => .ok (isWhole_max rfl h)

def HasOwnSize (r : ResolvedType) : Prop :=
  r.isPointer ∨ r.aggregate = none ∧ ∃ b, r.base = some b ∧ b ≠ .void

theorem settles_elementExtent (hd : d.IsTyped) {r : ResolvedType}
    (h : HasOwnSize r ∨ (∀ fault, P (.model fault)) ∧
      ∀ b, r.aggregate = some b → Settles I IsWhole P (inner b)) :
    Settles I (fun x => x.1.isWhole ∧ x.2.isWhole) P
      (d.elementExtent inner a m r) := by
  unfold elementExtent
  split
  · exact (settles_lift (ends_smaller hd.target.pointerSize hd.target.maxAlignment)).bind
      fun _ h => settles_pure ⟨hd.target.pointerSize, h⟩
  rename_i hpointer
  split
  · rename_i b hb
    -- A type with a size of its own never gets to the layout of an aggregate.
    have hinner : Settles I IsWhole P (inner b) := by
      rcases h with hown | ⟨-, hinner⟩
      · cases (hown.resolve_left hpointer).1.symm.trans hb
      · exact hinner b hb
    refine hinner.bind fun l hl => settles_pure ?_
    rw [Json.isWhole_ofScalar, Json.isWhole_ofScalar]
    exact ⟨hl.size, hl.alignment⟩
  · rename_i b _ hbase
    split
    · rename_i hvoid
      rcases h with hown | ⟨hfault, -⟩
      · obtain ⟨-, b', hb', hne⟩ := hown.resolve_left hpointer
        exact absurd (Option.some.inj (hb'.symm.trans hbase) ▸ hvoid) hne
      · exact settles_throw (hfault _)
    · refine (settles_lift (ends_alignment hd _)).bind fun x hx => settles_pure ?_
      rw [Json.isWhole_ofScalar]
      exact ⟨isWhole_size hd _, hx⟩
  · rename_i _ hbase
    rcases h with hown | ⟨hfault, -⟩
    · obtain ⟨-, b', hb', -⟩ := hown.resolve_left hpointer
      cases hb'.symm.trans hbase
    · exact settles_throw (hfault _)

theorem settles_resolvedShape (hm : m.IsTyped) {s : String} (hs : m.type.spelling = .ok s)
    (hresolve : FailsOnly P (d.resolve aliases s))
    (hextent : ∀ r, d.resolve aliases s = .ok r → Settles I
      (fun x => x.1.isWhole ∧ x.2.isWhole) P (d.elementExtent inner a m r)) :
    Settles I MemberShape.IsWhole P (d.resolvedShape aliases inner a m) := by
  refine (settles_lift (.of_exists ⟨s, hs, rfl⟩)).bind fun s' hs' => ?_
  subst hs'
  refine (settles_lift hresolve.with_eq).bind fun r hr =>
    (settles_lift (ends_multiplied (isWhole_declaredCount hm) _)).bind fun count hcount =>
      (hextent r hr).bind fun x hx => settles_pure ⟨hx.1, ?_, hcount⟩
  split
  · exact hx.2
  · rename_i hnull
    exact hm.alignment.resolve_left hnull

theorem settles_memberShape (hd : d.IsTyped) (hm : m.IsTyped)
    (hresolved : m.size.isNull →
      Settles I MemberShape.IsWhole P (d.resolvedShape aliases inner a m)) :
    Settles I MemberShape.IsWhole P (d.memberShape aliases inner a m) := by
  have hpacked : ∀ s : MemberShape, s.IsWhole → MemberShape.IsWhole
      (if a.isPacked.isVoid then s else { s with alignment := .int 1 }) := by
    intro s hs
    split
    · exact hs
    · exact ⟨hs.size, rfl, hs.count⟩
  unfold memberShape
  dsimp only
  split
  · rename_i hsize
    exact (hresolved hsize).bind fun s hs => settles_pure (hpacked s hs)
  · rename_i hsize
    exact (settles_lift (ends_declaredShape hd hm (Bool.eq_false_iff.mpr hsize))).bind
      fun s hs => settles_pure (hpacked s hs)

theorem settles_memberShape_of_mem (hd : d.IsTyped) (hb : b ∈ d.allAggregates) (hm : m ∈ b.members)
    (hinner : ∀ b ∈ d.allAggregates, Settles I IsWhole (d.Unlaid aliases) (inner b)) :
    Settles I MemberShape.IsWhole (d.Unlaid aliases) (d.memberShape aliases inner a m) := by
  have hentity := mem_allAggregates.mp hb
  have htyped : m.IsTyped := AggregateDecl.IsTyped.members (hd.entities _ hentity) m hm
  obtain ⟨s, hs⟩ := Json.exists_spelling htyped.type
  refine settles_memberShape hd htyped fun hsize =>
    settles_resolvedShape htyped hs ?_ fun r hr => ?_
  · refine ⟨fun _ _ => trivial, fun e he => .inr ?_⟩
    have hcause := (ends_resolve hd (.type hentity (mem_map_of_mem hm) hs)).of_eq_error e he
    rcases hcause with ⟨chain, rfl⟩ | hextent
    · exact .cycle hb hm hsize hs he
    · exact .extent hextent
  · exact settles_elementExtent hd
      (.inr ⟨fun fault => .inl ⟨fault, rfl⟩, fun b hb => hinner b (mem_of_resolve hr hb)⟩)

/-! ## Layouts -/

theorem settles_placeMembers (hmembers : ∀ m ∈ a.members, m.IsTyped)
    (hshape : ∀ m ∈ a.members, Settles I MemberShape.IsWhole P (d.memberShape aliases inner a m)) :
    Settles I IsWhole P (d.placeMembers aliases inner a) := by
  unfold placeMembers
  split
  · refine (settles_foldlM (fun o ho m hm => ?_) isWhole_start_overlay).bind fun o ho =>
      settles_lift (ends_toLayout_overlay ho)
    exact (hshape m hm).bind fun s hs => settles_lift (ends_place_overlay ho hs)
  · refine (settles_foldlM (fun p hp m hm => ?_) isWhole_start_placement).bind fun p hp =>
      settles_lift (ends_toLayout_placement hp)
    exact (hshape m hm).bind fun s hs => settles_lift (ends_place hp (hmembers m hm) hs)

theorem settles_placeMembers_of_mem (hd : d.IsTyped)
    (hmembers : ∀ m ∈ a.members, ∃ b ∈ d.allAggregates, m ∈ b.members)
    (hinner : ∀ b ∈ d.allAggregates, Settles I IsWhole (d.Unlaid aliases) (inner b)) :
    Settles I IsWhole (d.Unlaid aliases) (d.placeMembers aliases inner a) := by
  refine settles_placeMembers (fun m hm => ?_) fun m hm => ?_
  · obtain ⟨b, hb, hm⟩ := hmembers m hm
    exact AggregateDecl.IsTyped.members (hd.entities _ (mem_allAggregates.mp hb)) m hm
  · obtain ⟨b, hb, hm⟩ := hmembers m hm
    exact settles_memberShape_of_mem hd hb hm hinner

theorem exists_containsItself (hinside : ∀ n ∈ inside, n.isText)
    (ha : a.name.isText) : ∃ fault, containsItself inside a = .model fault := by
  have htexts : ∀ n ∈ inside ++ [a.name], n.isText :=
    forall_mem_append.mpr ⟨hinside, forall_mem_singleton.mpr ha⟩
  obtain ⟨chain, hchain⟩ := Json.exists_mapM_asText htexts
  exact ⟨_, by rw [containsItself, hchain]⟩

/-- One level of computing a layout: it is kept already, the aggregate is inside itself, or the
members are placed and the result is kept. -/
theorem settles_layoutInside_succ {Q : Layout → Prop} {fuel : Nat}
    (hfound : ∀ c l, I c → c.get? a.identity = some l → Q l)
    (hinside : inside.contains a.name → P (containsItself inside a))
    (hplaced : ¬inside.contains a.name → Settles I Q P
      (d.placeMembers aliases (d.layoutInside aliases fuel (inside ++ [a.name])) a))
    (hkept : ∀ c l, I c → Q l → I (c.put a.identity l)) :
    Settles I Q P (d.layoutInside aliases (fuel + 1) inside a) := by
  intro c hc
  rw [run_layoutInside_succ]
  cases hget : c.get? a.identity with
  | some l => exact ⟨hc, .ok (hfound c l hc hget)⟩
  | none =>
    dsimp only
    split
    · exact ⟨hc, .error (hinside ‹_›)⟩
    · obtain ⟨hafter, hends⟩ := hplaced ‹_› c hc
      rcases hrun : (d.placeMembers aliases
        (d.layoutInside aliases fuel (inside ++ [a.name])) a).run.run c with ⟨e | l, c'⟩
      · rw [hrun] at hafter hends
        exact ⟨hafter, .error (hends.of_eq_error e rfl)⟩
      · rw [hrun] at hafter hends
        have hl : Q l := hends.of_eq_ok l rfl
        exact ⟨hkept c' l hafter hl, .ok hl⟩

def AreWhole (c : LayoutCache) : Prop := ∀ l ∈ c.values, l.IsWhole

theorem AreWhole.put (hc : AreWhole c) {l : Layout} (hl : l.IsWhole) :
    AreWhole (c.put a.identity l) := by
  intro l' hl'
  rcases Table.mem_values_put hl' with hl' | rfl
  · exact hc l' hl'
  · exact hl

theorem settles_layoutInside (hd : d.IsTyped) (fuel : Nat)
    (hinside : ∀ n ∈ inside, n.isText) (ha : a ∈ d.allAggregates) :
    Settles AreWhole IsWhole (d.Unlaid aliases) (d.layoutInside aliases fuel inside a) := by
  -- The names on the way down are texts, so that both running out of fuel and meeting an aggregate
  -- again end with a chain of names, which is a reason in the declarations.
  have hname {b : AggregateDecl} (hb : b ∈ d.allAggregates) : b.name.isText :=
    AggregateDecl.IsTyped.name (hd.entities _ (mem_allAggregates.mp hb))
  induction fuel generalizing inside a with
  | zero => exact settles_throw (.inl (exists_containsItself hinside (hname ha)))
  | succ fuel ih =>
    have hdeeper : ∀ n ∈ inside ++ [a.name], n.isText :=
      forall_mem_append.mpr ⟨hinside, forall_mem_singleton.mpr (hname ha)⟩
    refine settles_layoutInside_succ (fun c l hc hget => hc l (Table.mem_values_of_get? hget))
      (fun _ => .inl (exists_containsItself hinside (hname ha))) (fun _ => ?_)
      fun c l hc hl => hc.put hl
    exact settles_placeMembers_of_mem hd (fun m hm => ⟨a, ha, hm⟩) fun b hb => ih hdeeper hb

/-! ## Advice -/

theorem failsOnly_write (s : Scalar) : FailsOnly (· = .longInteger none) s.write := by
  unfold write
  split
  · split
    · exact .ok trivial
    · exact .error rfl
  · exact .ok trivial

theorem failsOnly_isPadded {l : Layout} (hl : l.IsWhole) : FailsOnly P (isPadded l) := by
  unfold isPadded
  split
  · exact (ends_times hl.padding rfl).bind fun _ _ => .ok trivial
  · exact .ok trivial

theorem failsOnly_sizeWarnings (a : AggregateDecl) {l : Layout} (hl : l.IsWhole)
    (hsize : FailsOnly P l.size.write) (hpadding : FailsOnly P l.padding.write) :
    FailsOnly P (sizeWarnings a l) := by
  have hpadded (large : List String) : FailsOnly P (do
      if ← isPadded l then
        let padding ← l.padding.write
        let size ← l.size.write
        return large ++ [a.name.plain ++ ": " ++ padding ++ " of " ++ size ++ " bytes are padding"]
      return large) := by
    refine (failsOnly_isPadded hl).bind fun b _ => ?_
    split
    · exact hpadding.bind fun _ _ => hsize.bind fun _ _ => .ok trivial
    · exact .ok trivial
  unfold sizeWarnings
  split
  · exact hsize.bind fun _ _ => hpadded _
  · exact hpadded _

theorem settles_layoutWarnings (hd : d.IsTyped) (ha : a ∈ d.allAggregates) :
    Settles AreWhole (fun _ => True) (d.Unlaid aliases) (d.layoutWarnings aliases a) := by
  have hname : a.name.isText :=
    AggregateDecl.IsTyped.name (hd.entities _ (mem_allAggregates.mp ha))
  have hinside : ∀ n ∈ [a.name], n.isText := forall_mem_singleton.mpr hname
  have hlayout : Settles AreWhole IsWhole (d.Unlaid aliases) (d.layout aliases a) :=
    settles_layoutInside hd _ nofun ha
  refine hlayout.with_run.bind fun l ⟨hl, c, hrun⟩ => ?_
  have hwrite {n : Scalar} (hn : d.Advises aliases a l n) :
      FailsOnly (d.Unlaid aliases) n.write := by
    refine ⟨fun _ _ => trivial, fun e he => .inr ?_⟩
    obtain rfl := (failsOnly_write n).of_eq_error e he
    exact .unwritable ha hrun hn he
  refine (settles_lift (failsOnly_sizeWarnings a hl (hwrite .size) (hwrite .padding))).bind
    fun sizes _ => ?_
  dsimp only
  split
  · exact settles_pure trivial
  -- The members in another order are still members of the aggregate.
  have hmembers : ∀ m ∈ byAlignment l a.members, ∃ b ∈ d.allAggregates, m ∈ b.members :=
    fun m hm => ⟨a, ha, mem_mergeSort.mp hm⟩
  have hplaced : Settles AreWhole IsWhole (d.Unlaid aliases)
      (d.placeMembers aliases (d.layoutInside aliases d.containmentBound [a.name])
        { a with members := byAlignment l a.members }) :=
    settles_placeMembers_of_mem hd hmembers fun b hb => settles_layoutInside hd _ hinside hb
  refine hplaced.with_run.bind fun better ⟨hbetter, c', hrun'⟩ => ?_
  split
  · have hsaved : FailsOnly (d.Unlaid aliases)
        ((minus l.size better.size).bind write) :=
      (ends_minus hl.size hbetter.size).with_eq.bind fun _ hs => hwrite (.saved hrun' hs)
    exact (settles_lift hsaved).bind fun _ _ => settles_pure trivial
  · exact settles_pure trivial

theorem settles_layoutIssues (hd : d.IsTyped) :
    Settles AreWhole (fun _ => True) (d.Escapes aliases) (d.layoutIssues aliases) := by
  refine (settles_mapM (Q := fun _ => True) fun a ha => ?_).bind fun _ _ => settles_pure trivial
  refine ((settles_layoutWarnings hd (mem_allAggregates_of_mem ha)).bind fun _ _ =>
    settles_pure trivial).catch fun e he => ?_
  rcases he with ⟨fault, rfl⟩ | hescapes
  · exact settles_pure trivial
  · split
    · exact settles_pure trivial
    · exact settles_throw hescapes

/-! ## Cycles that are met -/

/-- A member whose size is known without the layout of an aggregate. -/
def Sizable (d : Declarations) (aliases : Option AliasTable) (m : MemberDecl) : Prop :=
  m.size.isNull = false ∨
    ∃ s r, m.type.spelling = .ok s ∧ d.resolve aliases s = .ok r ∧ HasOwnSize r

/-- An aggregate in which the first member that is not of a known size has a type that leads into a
cycle of aliases. -/
def MeetsCycle (d : Declarations) (aliases : Option AliasTable) (a : AggregateDecl) : Prop :=
  ∃ before m after s chain, a.members = before ++ m :: after ∧
    (∀ m' ∈ before, d.Sizable aliases m') ∧ m.size.isNull ∧ m.type.spelling = .ok s ∧
    d.resolve aliases s = .error (.aliasCycle chain)

theorem settles_memberShape_of_sizable (hd : d.IsTyped) (hm : m.IsTyped)
    (hsizable : d.Sizable aliases m) :
    Settles I MemberShape.IsWhole P (d.memberShape aliases inner a m) := by
  refine settles_memberShape hd hm fun hsize => ?_
  rcases hsizable with hne | ⟨s, r, hs, hr, hown⟩
  · rw [hsize] at hne
    cases hne
  · refine settles_resolvedShape hm hs (.of_exists ⟨r, hr, trivial⟩) fun r' hr' => ?_
    obtain rfl : r = r' := Except.ok.inj (hr.symm.trans hr')
    exact settles_elementExtent hd (.inl hown)

theorem settles_memberShape_of_cycle {s : String} {chain : List String}
    (hsize : m.size.isNull) (hs : m.type.spelling = .ok s)
    (hr : d.resolve aliases s = .error (.aliasCycle chain)) :
    Settles I (fun _ => False) Error.IsAliasCycle (d.memberShape aliases inner a m) := by
  have hresolve : Ends (fun _ => False) Error.IsAliasCycle (d.resolve aliases s) := by
    rw [hr]
    exact .error ⟨chain, rfl⟩
  have hshape : Settles I (fun _ => False) Error.IsAliasCycle
      (d.resolvedShape aliases inner a m) := by
    refine (settles_lift (.of_exists ⟨s, hs, rfl⟩)).bind fun s' hs' => ?_
    subst hs'
    exact (settles_lift hresolve).bind fun _ h => h.elim
  unfold memberShape
  rw [if_pos hsize]
  exact hshape.bind fun _ h => h.elim

theorem settles_placeMembers_of_meetsCycle (hd : d.IsTyped) (ha : a.IsTyped)
    (hcycle : d.MeetsCycle aliases a) :
    Settles I (fun _ => False) Error.IsAliasCycle (d.placeMembers aliases inner a) := by
  obtain ⟨before, m, after, s, chain, hmembers, hsizable, hsize, hs, hr⟩ := hcycle
  have hbefore : ∀ m' ∈ before, m'.IsTyped := fun m' hm' =>
    ha.members m' (hmembers ▸ mem_append_left _ hm')
  unfold placeMembers
  rw [hmembers]
  split
  · refine (settles_foldlM_of_stop (fun o ho m' hm' => ?_) (fun o ho => ?_)
      isWhole_start_overlay).bind fun _ h => h.elim
    · exact (settles_memberShape_of_sizable hd (hbefore m' hm') (hsizable m' hm')).bind
        fun s hs => settles_lift (ends_place_overlay ho hs)
    · exact (settles_memberShape_of_cycle hsize hs hr).bind fun _ h => h.elim
  · refine (settles_foldlM_of_stop (fun p hp m' hm' => ?_) (fun p hp => ?_)
      isWhole_start_placement).bind fun _ h => h.elim
    · exact (settles_memberShape_of_sizable hd (hbefore m' hm') (hsizable m' hm')).bind
        fun s hs => settles_lift (ends_place hp (hbefore m' hm') hs)
    · exact (settles_memberShape_of_cycle hsize hs hr).bind fun _ h => h.elim

def Lacks (a : AggregateDecl) (c : LayoutCache) : Prop :=
  ∀ x ∈ c.entries, ¬(x.1 == a.identity)

theorem lacks_iff {c : LayoutCache} : Lacks a c ↔ c.get? a.identity = none := by
  rw [Table.get?, Option.map_eq_none_iff, find?_eq_none]
  rfl

theorem Lacks.put (hc : Lacks a c)
    (hb : ¬(b.identity == a.identity)) (l : Layout) : Lacks a (c.put b.identity l) := by
  intro x hx
  rcases Table.mem_entries_put hx with hx | rfl | ⟨w, -, hx, -⟩
  · exact hc x hx
  · exact hb
  · exact hc (x.1, w) hx

theorem settles_layoutInside_of_meetsCycle (hd : d.IsTyped) (ha : a ∈ d.allAggregates)
    (hcycle : d.MeetsCycle aliases a) {fuel : Nat}
    (hinside : inside.contains a.name → P (containsItself inside a))
    (hP : ∀ e : Error, e.IsAliasCycle → P e) :
    Settles (Lacks a) (fun _ => False) P (d.layoutInside aliases (fuel + 1) inside a) := by
  have htyped : a.IsTyped := hd.entities _ (mem_allAggregates.mp ha)
  refine settles_layoutInside_succ (fun c l hc hget => ?_) hinside
    (fun _ => (settles_placeMembers_of_meetsCycle hd htyped hcycle).imp (fun _ h => h) hP)
    fun _ _ _ h => h.elim
  cases (lacks_iff.mp hc).symm.trans hget

theorem preserves_lacks (hd : d.IsTyped) (hdistinct : d.Distinct) (ha : a ∈ d.allAggregates)
    (hcycle : d.MeetsCycle aliases a) (fuel : Nat) (inside : List Json)
    (hb : b ∈ d.allAggregates) : Preserves (Lacks a) (d.layoutInside aliases fuel inside b) := by
  induction fuel generalizing inside b with
  | zero => exact preserves_throw _
  | succ fuel ih =>
    intro c hc
    by_cases hbeq : b.identity == a.identity
    · -- Identities are distinct, so this is the aggregate itself.
      obtain rfl := hdistinct.eq_of_beq hb ha hbeq
      exact (settles_layoutInside_of_meetsCycle hd hb hcycle (P := fun _ => True)
        (fun _ => trivial) (fun _ _ => trivial) c hc).1
    · have hplaced : Preserves (Lacks a)
          (d.placeMembers aliases (d.layoutInside aliases fuel (inside ++ [b.name])) b) :=
        preserves_placeMembers fun b' hb' => ih (inside ++ [b.name]) hb'
      exact (settles_layoutInside_succ (fun _ _ _ _ => trivial) (fun _ => trivial)
        (fun _ => hplaced.settles) (fun _ l hc _ => hc.put hbeq l) c hc).1

theorem settles_layoutIssuesOf_of_meetsCycle (hd : d.IsTyped) (ha : a ∈ d.allAggregates)
    (hcycle : d.MeetsCycle aliases a) :
    Settles (Lacks a) (fun _ => False) Error.IsAliasCycle (d.layoutIssuesOf aliases a) := by
  have hlayout : Settles (Lacks a) (fun _ => False) Error.IsAliasCycle (d.layout aliases a) :=
    settles_layoutInside_of_meetsCycle hd ha hcycle nofun fun _ h => h
  have hwarnings : Settles (Lacks a) (fun _ => False) Error.IsAliasCycle
      (d.layoutWarnings aliases a) := hlayout.bind fun _ h => h.elim
  refine (hwarnings.bind fun _ h => h.elim).catch fun e he => ?_
  -- Only reasons in the declarations are passed over, and a cycle of aliases is none.
  obtain ⟨chain, rfl⟩ := he
  exact settles_throw ⟨chain, rfl⟩

theorem exists_error_layoutIssues (hd : d.IsTyped) (hdistinct : d.Distinct)
    (ha : a ∈ d.allAggregates) (hcycle : d.MeetsCycle aliases a)
    (hc : Lacks a c) : ∃ e, ((d.layoutIssues aliases).run.run c).1 = .error e := by
  have hkept : ∀ b ∈ d.aggregates, Preserves (Lacks a) (d.layoutIssuesOf aliases b) := fun b hb =>
    preserves_layoutIssuesOf (fun fuel inside b' hb' =>
      preserves_lacks hd hdistinct ha hcycle fuel inside hb') (mem_allAggregates_of_mem hb)
  rcases hrun : (d.layoutIssues aliases).run.run c with ⟨e | issues, c'⟩
  · exact ⟨e, rfl⟩
  · -- All aggregates have been looked at, and this one, too.
    obtain ⟨_, c1, hall, -⟩ := run_bind_eq_ok hrun
    obtain ⟨found, c2, c3, hone, hc2, -⟩ :=
      exists_run_of_mem hkept hkept hall hc (hd.mem_aggregates.mpr ha)
    have hends := (settles_layoutIssuesOf_of_meetsCycle hd ha hcycle c2 hc2).2
    rw [hone] at hends
    exact (hends.of_eq_ok found rfl).elim

end Declarations

end Branchwise
