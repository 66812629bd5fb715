import Branchwise.Proofs.Layout.Whole

/-!
# The geometry of a layout

The bytes of a struct are taken in regions, one for each member that is no bit-field and one for
each storage unit.  They lie one after another inside the struct, each at a multiple of its
alignment; what no region takes is padding.
-/

namespace Branchwise

open List Extent Spot

structure Extent.IsSane (e : Extent) : Prop where
  size : 0 ≤ e.size
  count : 0 ≤ e.count
  alignment : 1 ≤ e.alignment
  width : ∀ w ∈ e.width, 0 ≤ w ∧ w ≤ 8 * e.size

/-- Whether a member of a struct has a place: a bit-field of width zero has none. -/
def Extent.isPlaced (e : Extent) : Bool := e.width != some 0

/-- The bytes that a member of a struct lies in: those of its elements, or of its storage unit. -/
def Extent.room (e : Extent) : Int := if e.width.isSome then e.size else e.bytes

namespace Spot

def stop (b : Spot) : Int := b.offset + b.size

/-- Whether a spot starts a region: that of a bit-field does if it takes the first bit of its
unit. -/
def isRegion (b : Spot) : Bool := b.bits.all fun x => x.1 == 0

def Covers (b : Spot) (i : Int) : Prop := b.offset ≤ i ∧ i < b.stop

instance (b : Spot) (i : Int) : Decidable (b.Covers i) := inferInstanceAs (Decidable (_ ∧ _))

theorem isRegion_of_bits {b : Spot} (h : ∀ x ∈ b.bits, x.1 = 0) : b.isRegion := by
  cases hx : b.bits with
  | none => simp [isRegion, hx]
  | some x => simp [isRegion, hx, h x hx]

structure Holds (b : Spot) (e : Extent) (bytes : Int) : Prop where
  name : b.name = e.name
  size : b.size = bytes
  alignment : b.alignment = e.alignment
  width : b.bits.map Prod.snd = e.width

end Spot

namespace Layout

structure Arranged (spots : List Spot) (room : Int) : Prop where
  inside : ∀ b ∈ spots, 0 ≤ b.offset ∧ 0 ≤ b.size ∧ b.stop ≤ room
  aligned : ∀ r ∈ spots.filter isRegion, r.alignment ∣ r.offset
  apart : (spots.filter isRegion).Pairwise fun r r' => r.stop ≤ r'.offset
  in_unit : ∀ b ∈ spots, b.bits.isSome →
    ∃ u ∈ spots.filter isRegion, u.bits.isSome ∧ b.offset = u.offset ∧ b.size = u.size
  bits_inside : ∀ b ∈ spots, ∀ x ∈ b.bits, 0 ≤ x.1 ∧ 0 < x.2 ∧ x.1 + x.2 ≤ 8 * b.size
  bits_apart : spots.Pairwise fun b b' =>
    b.offset = b'.offset → ∀ x ∈ b.bits, ∀ y ∈ b'.bits, x.1 + x.2 ≤ y.1

end Layout

namespace Plan

def freeBytes (g : Plan) : Finset Nat :=
  (Finset.range g.size.toNat).filter fun i => ∀ r ∈ g.spots.filter isRegion, ¬r.Covers i

structure IsStruct (g : Plan) (es : List Extent) : Prop extends
    Layout.Arranged g.spots g.size where
  alignment_eq : g.alignment = greatestAlignment es
  alignment_dvd : g.alignment ∣ g.size
  in_order : Forall₂ (fun b e => b.Holds e e.room) g.spots (es.filter isPlaced)
  padding_eq : g.padding = g.freeBytes.card

structure IsUnion (g : Plan) (es : List Extent) : Prop where
  alignment_eq : g.alignment = greatestAlignment es
  alignment_dvd : g.alignment ∣ g.size
  in_order : Forall₂ (fun b e => b.Holds e e.bytes) g.spots es
  offset_eq : ∀ b ∈ g.spots, b.offset = 0
  fits : ∀ b ∈ g.spots, 0 ≤ b.size ∧ b.size ≤ g.size
  padding_eq : g.padding = g.size - largest es

end Plan

namespace Layout

/-! ## Regions and bits, one more at a time -/

namespace Arranged

variable {spots : List Spot} {room : Int} {b : Spot}

theorem nil : Arranged [] room := by
  constructor <;> simp

section

variable (h : Arranged spots room)
include h

theorem mono {room' : Int} (hle : room ≤ room') : Arranged spots room' :=
  { h with
    inside := fun b hb =>
      ⟨(h.inside b hb).1, (h.inside b hb).2.1, (h.inside b hb).2.2.trans hle⟩ }

theorem size_pos (hb : b ∈ spots) {x : Int × Int} (hx : x ∈ b.bits) : 0 < b.size := by
  have hbits := h.bits_inside b hb x hx
  omega

theorem concat_region (hstart : room ≤ b.offset) (hroom : 0 ≤ room) (hsize : 0 ≤ b.size)
    (haligned : b.alignment ∣ b.offset)
    (hbits : ∀ x ∈ b.bits, x.1 = 0 ∧ 0 < x.2 ∧ x.2 ≤ 8 * b.size) :
    Arranged (spots ++ [b]) b.stop := by
  have hstop : room ≤ b.stop := hstart.trans (le_add_of_nonneg_right hsize)
  have hregion : b.isRegion := isRegion_of_bits fun x hx => (hbits x hx).1
  have hregions : (spots ++ [b]).filter isRegion = spots.filter isRegion ++ [b] := by
    simp [hregion]
  have hlast : b ∈ (spots ++ [b]).filter isRegion := by simp [hregion]
  refine
    { inside := ?_, aligned := ?_, apart := ?_, in_unit := ?_, bits_inside := ?_, bits_apart := ?_ }
  · intro c hc
    rcases mem_append.mp hc with hc | hc
    · exact (h.mono hstop).inside c hc
    · obtain rfl := mem_singleton.mp hc
      exact ⟨hroom.trans hstart, hsize, le_refl _⟩
  · rw [hregions]
    intro c hc
    rcases mem_append.mp hc with hc | hc
    · exact h.aligned c hc
    · obtain rfl := mem_singleton.mp hc
      exact haligned
  · rw [hregions, pairwise_append]
    refine ⟨h.apart, pairwise_singleton _ _, fun r hr r' hr' => ?_⟩
    obtain rfl := mem_singleton.mp hr'
    exact (h.inside r (mem_of_mem_filter hr)).2.2.trans hstart
  · intro c hc hbit
    rcases mem_append.mp hc with hc | hc
    · obtain ⟨u, hu, hunit⟩ := h.in_unit c hc hbit
      exact ⟨u, hregions ▸ mem_append_left _ hu, hunit⟩
    · obtain rfl := mem_singleton.mp hc
      exact ⟨c, hlast, hbit, rfl, rfl⟩
  · intro c hc x hx
    rcases mem_append.mp hc with hc | hc
    · exact h.bits_inside c hc x hx
    · obtain rfl := mem_singleton.mp hc
      obtain ⟨hfirst, hpos, hfit⟩ := hbits x hx
      omega
  · rw [pairwise_append]
    refine ⟨h.bits_apart, pairwise_singleton _ _, fun c hc c' hc' heq x hx => ?_⟩
    -- An earlier unit is not empty and ends before this one starts.
    obtain rfl := mem_singleton.mp hc'
    have hpos := h.size_pos hc hx
    have hend := (h.inside c hc).2.2
    unfold stop at hend
    omega

theorem concat_bits {u : Spot} (hu : u ∈ spots.filter isRegion) (hunit : u.bits.isSome)
    (hoffset : b.offset = u.offset) (hsize : b.size = u.size) {used width : Int}
    (hbits : b.bits = some (used, width)) (hused : 0 < used) (hwidth : 0 < width)
    (hfit : used + width ≤ 8 * b.size)
    (hlast : ∀ c ∈ spots, c.offset = u.offset → ∀ x ∈ c.bits, x.1 + x.2 ≤ used) :
    Arranged (spots ++ [b]) room := by
  have hregion : b.isRegion = false := by simp [isRegion, hbits, hused.ne']
  -- It starts no region, so of the regions nothing changes.
  have hregions : (spots ++ [b]).filter isRegion = spots.filter isRegion := by
    simp [hregion]
  refine
    { inside := ?_, aligned := hregions ▸ h.aligned, apart := hregions ▸ h.apart, in_unit := ?_
      bits_inside := ?_, bits_apart := ?_ }
  · intro c hc
    rcases mem_append.mp hc with hc | hc
    · exact h.inside c hc
    · obtain rfl := mem_singleton.mp hc
      rw [stop, hoffset, hsize]
      exact h.inside u (mem_of_mem_filter hu)
  · rw [hregions]
    intro c hc hbit
    rcases mem_append.mp hc with hc | hc
    · exact h.in_unit c hc hbit
    · obtain rfl := mem_singleton.mp hc
      exact ⟨u, hu, hunit, hoffset, hsize⟩
  · intro c hc x hx
    rcases mem_append.mp hc with hc | hc
    · exact h.bits_inside c hc x hx
    · obtain rfl := mem_singleton.mp hc
      obtain rfl : (used, width) = x := Option.some.inj (hbits.symm.trans hx)
      exact ⟨hused.le, hwidth, hfit⟩
  · rw [pairwise_append]
    refine ⟨h.bits_apart, pairwise_singleton _ _, fun c hc c' hc' heq x hx y hy => ?_⟩
    obtain rfl := mem_singleton.mp hc'
    obtain rfl : (used, width) = y := Option.some.inj (hbits.symm.trans hy)
    exact hlast c hc (heq.trans hoffset) x hx

end

end Arranged

/-! ## Counting the bytes of the regions -/

theorem card_covered {rs : List Spot} {n : Int}
    (hinside : ∀ r ∈ rs, 0 ≤ r.offset ∧ 0 ≤ r.size ∧ r.stop ≤ n)
    (hapart : rs.Pairwise fun r r' => r.stop ≤ r'.offset) :
    (((Finset.range n.toNat).filter fun i : Nat => ∃ r ∈ rs, r.Covers i).card : Int)
      = (rs.map Spot.size).sum := by
  induction rs with
  | nil => simp
  | cons r rs ih =>
    obtain ⟨hoffset, hsize, hstop⟩ := hinside r mem_cons_self
    obtain ⟨hfirst, hrest⟩ := pairwise_cons.mp hapart
    have hown : (Finset.range n.toNat).filter (fun i : Nat => r.Covers i)
        = Finset.Ico r.offset.toNat r.stop.toNat := by
      ext i
      rw [Finset.mem_filter, Finset.mem_range, Finset.mem_Ico, Covers]
      omega
    have hsplit : (Finset.range n.toNat).filter (fun i : Nat => ∃ r' ∈ r :: rs, r'.Covers i)
        = (Finset.range n.toNat).filter (fun i : Nat => r.Covers i)
          ∪ (Finset.range n.toNat).filter (fun i : Nat => ∃ r' ∈ rs, r'.Covers i) := by
      rw [← Finset.filter_or]
      simp
    have hdisjoint : Disjoint ((Finset.range n.toNat).filter (fun i : Nat => r.Covers i))
        ((Finset.range n.toNat).filter (fun i : Nat => ∃ r' ∈ rs, r'.Covers i)) := by
      rw [Finset.disjoint_filter]
      rintro i - hi ⟨r', hr', hi'⟩
      exact absurd (hi.2.trans_le ((hfirst r' hr').trans hi'.1)) (lt_irrefl _)
    have ih := ih (fun r' hr' => hinside r' (mem_cons_of_mem _ hr')) hrest
    rw [hsplit, Finset.card_union_of_disjoint hdisjoint, Nat.cast_add, ih, hown, Nat.card_Ico,
      map_cons, sum_cons, stop]
    omega

theorem Arranged.card_freeBytes {g : Plan} (h : Arranged g.spots g.size) (hsize : 0 ≤ g.size) :
    (g.freeBytes.card : Int) = g.size - ((g.spots.filter isRegion).map Spot.size).sum := by
  have hcovered := card_covered (fun r hr => h.inside r (mem_of_mem_filter hr)) h.apart
  have hfree : g.freeBytes = (Finset.range g.size.toNat).filter fun i : Nat =>
      ¬∃ r ∈ g.spots.filter isRegion, r.Covers i := by
    simp only [Plan.freeBytes, not_exists, not_and]
  have htotal := Finset.card_filter_add_card_filter_not (s := Finset.range g.size.toNat)
    (fun i : Nat => ∃ r ∈ g.spots.filter isRegion, r.Covers i)
  rw [Finset.card_range, ← hfree] at htotal
  omega

/-! ## The placing of a struct -/

namespace Packing

/-- The open storage unit is that of a placed bit-field, and the bits of all bit-fields in it are
among those that count as used. -/
structure Opened (q : Packing) (u : OpenBits) : Prop where
  region : ∃ r ∈ q.spots.filter isRegion, r.bits.isSome ∧ r.offset = u.start ∧ r.size = u.size
  used_pos : 0 < u.used
  used_le : ∀ b ∈ q.spots, b.offset = u.start → ∀ x ∈ b.bits, x.1 + x.2 ≤ u.used

/-- The members are placed one after another in the bytes taken so far. -/
structure Sound (q : Packing) (es : List Extent) : Prop extends Arranged q.spots q.offset where
  offset_nonneg : 0 ≤ q.offset
  dataBytes_eq : q.dataBytes = ((q.spots.filter isRegion).map Spot.size).sum
  in_order : Forall₂ (fun b e => b.Holds e e.room) q.spots (es.filter isPlaced)
  opened : ∀ u ∈ q.unit, q.Opened u

variable {q : Packing} {es : List Extent} {e : Extent} {width : Int}

theorem sound_start : start.Sound [] :=
  { Arranged.nil with
    offset_nonneg := le_refl _, dataBytes_eq := rfl, in_order := .nil, opened := nofun }

theorem Sound.withAlignment (h : q.Sound es) (k : Int) : Sound { q with alignment := k } es :=
  { h with opened := fun u hu => ⟨(h.opened u hu).1, (h.opened u hu).2, (h.opened u hu).3⟩ }

theorem filter_isPlaced_concat (es : List Extent) (hplaced : e.isPlaced) :
    (es ++ [e]).filter isPlaced = es.filter isPlaced ++ [e] := by
  simp [hplaced]

section

variable (h : q.Sound es)
include h

theorem Sound.concat_region {b : Spot} (hstart : q.offset ≤ b.offset) (hsize : 0 ≤ b.size)
    (haligned : b.alignment ∣ b.offset)
    (hbits : ∀ x ∈ b.bits, x.1 = 0 ∧ 0 < x.2 ∧ x.2 ≤ 8 * b.size) (hholds : b.Holds e e.room)
    (hplaced : e.isPlaced) (k : Int) :
    Sound ⟨b.stop, k, q.dataBytes + b.size, q.spots ++ [b],
      b.bits.map fun x => ⟨b.offset, b.size, x.2⟩⟩ (es ++ [e]) := by
  have hregions : (q.spots ++ [b]).filter isRegion = q.spots.filter isRegion ++ [b] := by
    simp [isRegion_of_bits fun x hx => (hbits x hx).1]
  refine
    { h.toArranged.concat_region hstart h.offset_nonneg hsize haligned hbits with
      offset_nonneg := ?_, dataBytes_eq := ?_, in_order := ?_, opened := ?_ }
  · exact (h.offset_nonneg.trans hstart).trans (le_add_of_nonneg_right hsize)
  · rw [hregions, map_append, sum_append, ← h.dataBytes_eq]
    simp
  · rw [filter_isPlaced_concat es hplaced]
    exact rel_append h.in_order (.cons hholds .nil)
  · intro u hu
    obtain ⟨x, hx, rfl⟩ := Option.mem_map.mp hu
    refine ⟨⟨b, hregions ▸ mem_append_right _ mem_cons_self, ?_, rfl, rfl⟩,
      (hbits x hx).2.1, fun c hc hoffset y hy => ?_⟩
    · exact Option.isSome_of_mem hx
    rcases mem_append.mp hc with hc | hc
    · -- An earlier unit is not empty, so it starts before this one.
      have hpos := h.size_pos hc hy
      have hend := (h.inside c hc).2.2
      have hsame : c.offset = b.offset := hoffset
      unfold stop at hend
      omega
    · obtain rfl := mem_singleton.mp hc
      obtain rfl := Option.mem_unique hx hy
      exact ((congrArg (· + x.2) (hbits x hx).1).trans (zero_add x.2)).le

theorem Sound.takeRegion (he : e.IsSane) (hplaced : e.isPlaced) :
    (q.takeRegion e e.room e.width).Sound (es ++ [e]) := by
  have hroom : 0 ≤ e.room := by
    unfold room
    split
    · exact he.size
    · exact mul_nonneg he.size he.count
  have hbits : ∀ x ∈ e.width.map (fun w => ((0 : Int), w)),
      x.1 = 0 ∧ 0 < x.2 ∧ x.2 ≤ 8 * e.room := by
    intro x hx
    obtain ⟨w, hw, rfl⟩ := Option.mem_map.mp hx
    have hne : w ≠ 0 := by
      rintro rfl
      simp [isPlaced, Option.mem_def.mp hw] at hplaced
    have hwidth := he.width w hw
    rw [show e.room = e.size by simp [room, Option.mem_def.mp hw]]
    exact ⟨rfl, by omega, hwidth.2⟩
  have hholds : (⟨e.name, roundUp q.offset e.alignment, e.room, e.alignment,
      e.width.map fun w => (0, w)⟩ : Spot).Holds e e.room :=
    ⟨rfl, rfl, rfl, by simp [Function.comp_def]⟩
  have hsound := h.concat_region (le_roundUp he.alignment) hroom (dvd_roundUp _ _) hbits hholds
    hplaced q.alignment
  rwa [Option.map_map] at hsound

theorem Sound.takeBits (he : e.IsSane) {u : OpenBits} (hu : q.unit = some u)
    (hw : e.width = some width) (hne : width ≠ 0) (hshare : Shares u e width) :
    (q.takeBits u e width).Sound (es ++ [e]) := by
  obtain ⟨⟨r, hr, hbit, hoffset, hsize⟩, hused, hlast⟩ := h.opened u hu
  have hplaced : e.isPlaced := by simp [isPlaced, hw, hne]
  have hpos : 0 < width := by
    have hwidth := he.width width hw
    omega
  have hfit : u.used + width ≤ 8 * e.size := by
    have hroom := hshare.2
    rw [hshare.1] at hroom
    omega
  obtain ⟨b, hb⟩ : ∃ b : Spot, b = ⟨e.name, u.start, e.size, e.alignment, some (u.used, width)⟩ :=
    ⟨_, rfl⟩
  have hbits : b.bits = some (u.used, width) := by rw [hb]
  have harranged : Arranged (q.spots ++ [b]) q.offset :=
    h.toArranged.concat_bits hr hbit (by rw [hb, hoffset]) (by rw [hb, hsize, hshare.1]) hbits hused
      hpos (by rwa [hb]) (fun c hc hsame => hlast c hc (hsame.trans hoffset))
  have hregions : (q.spots ++ [b]).filter isRegion = q.spots.filter isRegion := by
    simp [isRegion, hbits, hused.ne']
  rw [Packing.takeBits, ← hb]
  refine
    { harranged with
      offset_nonneg := h.offset_nonneg, dataBytes_eq := ?_, in_order := ?_, opened := ?_ }
  · rw [hregions, h.dataBytes_eq]
  · rw [filter_isPlaced_concat es hplaced]
    refine rel_append h.in_order (.cons ?_ .nil)
    subst hb
    exact ⟨rfl, by simp [room, hw], rfl, hw.symm⟩
  · rintro _ ⟨⟩
    refine ⟨⟨r, hregions ▸ hr, hbit, hoffset, hsize⟩, add_pos hused hpos,
      fun c hc hsame x hx => ?_⟩
    rcases mem_append.mp hc with hc | hc
    · exact (hlast c hc hsame x hx).trans (le_add_of_nonneg_right hpos.le)
    · obtain rfl := mem_singleton.mp hc
      obtain rfl : (u.used, width) = x := Option.some.inj (hbits.symm.trans hx)
      exact le_refl _

theorem Sound.endUnit (he : e.IsSane) (hw : e.width = some 0) :
    (q.endUnit e).Sound (es ++ [e]) := by
  have hnext : q.offset ≤ roundUp q.offset e.alignment := le_roundUp he.alignment
  have hsame : (es ++ [e]).filter isPlaced = es.filter isPlaced := by
    simp [isPlaced, hw]
  exact
    { h.toArranged.mono hnext with
      offset_nonneg := h.offset_nonneg.trans hnext
      dataBytes_eq := h.dataBytes_eq
      in_order := hsame ▸ h.in_order
      opened := nofun }

theorem Sound.place (he : e.IsSane) : (q.place e).Sound (es ++ [e]) := by
  have h := h.withAlignment (max q.alignment e.alignment)
  unfold Packing.place
  cases hw : e.width with
  | none =>
    have hregion := h.takeRegion he (by simp [isPlaced, hw])
    rwa [hw, show e.room = e.bytes by simp [room, hw]] at hregion
  | some width =>
    dsimp only
    by_cases hzero : width = 0
    · rw [placeBits, if_pos hzero]
      exact h.endUnit he (hzero ▸ hw)
    · have hregion := h.takeRegion he (by simp [isPlaced, hw, hzero])
      rw [hw, show e.room = e.size by simp [room, hw]] at hregion
      rw [placeBits, if_neg hzero]
      split
      · split
        · exact h.takeBits he ‹_› hw hzero ‹_›
        · exact hregion
      · exact hregion

theorem Sound.foldl {fs : List Extent} (hfs : ∀ e ∈ fs, e.IsSane) :
    (fs.foldl Packing.place q).Sound (es ++ fs) := by
  induction fs generalizing q es with
  | nil => rwa [append_nil]
  | cons e fs ih =>
    rw [append_cons]
    exact ih (h.place (hfs e mem_cons_self)) fun e he => hfs e (mem_cons_of_mem _ he)

end

theorem isStruct_toPlan (hes : ∀ e ∈ es, e.IsSane) :
    (es.foldl Packing.place start).toPlan.IsStruct es := by
  have h : (es.foldl Packing.place start).Sound es := sound_start.foldl hes
  have halignment : (es.foldl Packing.place start).alignment = greatestAlignment es :=
    alignment_foldl es start
  generalize es.foldl Packing.place start = q at h halignment
  have hroom : q.offset ≤ q.toPlan.size :=
    le_roundUp (halignment ▸ one_le_greatestAlignment es)
  have harranged : Arranged q.toPlan.spots q.toPlan.size := h.toArranged.mono hroom
  have hfree := harranged.card_freeBytes (h.offset_nonneg.trans hroom)
  exact
    { harranged with
      alignment_eq := halignment
      alignment_dvd := dvd_roundUp _ _
      in_order := h.in_order
      padding_eq := by
        rw [hfree]
        exact congrArg (q.toPlan.size - ·) h.dataBytes_eq }

end Packing

/-! ## The overlay of a union -/

namespace Overlay

theorem isUnion_plan {es : List Extent} (hes : ∀ e ∈ es, e.IsSane) : (plan es).IsUnion es := by
  have hlargest : Extent.largest es ≤ (plan es).size :=
    le_roundUp (one_le_greatestAlignment es)
  refine
    { alignment_eq := rfl, alignment_dvd := dvd_roundUp _ _, in_order := ?_, offset_eq := ?_
      fits := ?_, padding_eq := rfl }
  · show Forall₂ _ (es.map spot) es
    rw [forall₂_map_left_iff, forall₂_same]
    exact fun e _ => ⟨rfl, rfl, rfl, by simp [spot]⟩
  · intro b hb
    obtain ⟨e, -, rfl⟩ := mem_map.mp hb
    rfl
  · intro b hb
    obtain ⟨e, he, rfl⟩ := mem_map.mp hb
    exact ⟨mul_nonneg (hes e he).size (hes e he).count, (bytes_le_largest he).trans hlargest⟩

end Overlay

theorem exists_sound_ofShapes (isUnion : Bool) {xs : List (MemberDecl × MemberShape)}
    {es : List Extent} (hmeasured : Forall₂ (fun e x => e.Measures x.1 x.2) es xs)
    (hsane : ∀ e ∈ es, e.IsSane) :
    ∃ (l : Layout) (g : Plan), ofShapes isUnion xs = .ok l ∧ g.Reads l ∧
      if isUnion then g.IsUnion es else g.IsStruct es := by
  cases isUnion with
  | true =>
    obtain ⟨l, hl, hread⟩ := Overlay.exists_ofShapes hmeasured
    exact ⟨l, _, hl, hread, Overlay.isUnion_plan hsane⟩
  | false =>
    obtain ⟨l, hl, hread⟩ :=
      Packing.exists_ofShapes hmeasured fun e he => (hsane e he).alignment
    exact ⟨l, _, hl, hread, Packing.isStruct_toPlan hsane⟩

end Layout

end Branchwise
