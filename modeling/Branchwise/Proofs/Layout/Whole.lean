import Branchwise.Declarations.Entity
import Branchwise.Proofs.Data.Outcome
import Branchwise.Proofs.Number.Order

/-!
# Placing members in whole numbers

Where sizes, alignments, counts and widths are whole numbers and the alignments positive, placing
never fails, and it is the placing below, which is mere arithmetic: `Packing.place` for a struct,
and one spot at zero for each member of a union.
-/

namespace Branchwise

open List Json

/-! ## Whole numbers -/

namespace Scalar

variable {a b : Scalar} {m n : Int}

theorem value?_of_int? (h : a.int? = some m) : a.value? = some (.fin m) := by
  cases a with
  | bool b => cases b <;> cases h <;> rfl
  | int k => cases h; rfl
  | real x => cases h

theorem le_of_int? (ha : a.int? = some m) (hb : b.int? = some n) : a.le b = decide (m ≤ n) := by
  rw [le, value?_of_int? ha, value?_of_int? hb]
  simp [Extended.le, Extended.lt, ← decide_not]

theorem lt_of_int? (ha : a.int? = some m) (hb : b.int? = some n) : a.lt b = decide (m < n) := by
  rw [lt, value?_of_int? ha, value?_of_int? hb]
  simp [Extended.lt]

theorem int?_max (ha : a.int? = some m) (hb : b.int? = some n) :
    (a.max b).int? = some (Max.max m n) := by
  rw [Scalar.max, lt_of_int? ha hb]
  by_cases h : m < n
  · simp [h, hb, max_eq_right h.le]
  · simp [h, ha, max_eq_left (not_lt.mp h)]

end Scalar

namespace Json

def whole? (j : Json) : Option Int := j.scalar?.bind Scalar.int?

variable {j : Json} {n : Int}

theorem exists_scalar_of_whole? (h : j.whole? = some n) :
    ∃ s, j.scalar? = some s ∧ s.int? = some n :=
  Option.bind_eq_some_iff.mp h

theorem exists_asScalar (h : j.whole? = some n) : ∃ s, j.asScalar = .ok s ∧ s.int? = some n := by
  obtain ⟨s, hs, hn⟩ := exists_scalar_of_whole? h
  exact ⟨s, by rw [asScalar, hs], hn⟩

theorem whole?_ofScalar (s : Scalar) : (ofScalar s).whole? = s.int? := by
  cases s <;> rfl

theorem isNull_of_whole? (h : j.whole? = some n) : j.isNull = false := by
  cases j <;> first | rfl | cases h

theorem isVoid_of_whole? (h : j.whole? = some n) : j.isVoid = decide (n = 0) := by
  cases j with
  | bool b => cases b <;> cases h <;> rfl
  | int k => cases h; rfl
  | real x => cases h
  | null | str | arr | obj => cases h

theorem value?_of_whole? (h : j.whole? = some n) : j.value? = some (.fin n) := by
  obtain ⟨s, hs, hn⟩ := exists_scalar_of_whole? h
  rw [value?, hs]
  exact Scalar.value?_of_int? hn

end Json

namespace Layout

def roundUp (n k : Int) : Int := (n + k - 1) / k * k

section Rounding

variable {n k : Int}

theorem dvd_roundUp (n k : Int) : k ∣ roundUp n k := dvd_mul_left _ _

theorem le_roundUp (hk : 1 ≤ k) : n ≤ roundUp n k := by
  have hrest := Int.emod_lt_of_pos (n + k - 1) (by omega : 0 < k)
  have hsum := Int.mul_ediv_add_emod (n + k - 1) k
  rw [roundUp, mul_comm]
  omega

end Rounding

variable {a b : Scalar} {m n : Int}

theorem plus_of_int? (ha : a.int? = some m) (hb : b.int? = some n) :
    plus a b = .ok (.int (m + n)) := by
  rw [plus, sized, Scalar.add?, Scalar.combine?, ha, hb]
  rfl

theorem minus_of_int? (ha : a.int? = some m) (hb : b.int? = some n) :
    minus a b = .ok (.int (m - n)) := by
  rw [minus, sized, Scalar.sub?, Scalar.combine?, ha, hb]
  rfl

theorem times_of_int? (ha : a.int? = some m) (hb : b.int? = some n) :
    times a b = .ok (.int (m * n)) := by
  rw [times, sized, Scalar.mul?, Scalar.combine?, ha, hb]
  rfl

theorem exists_alignUp (ha : a.int? = some m) (hb : b.int? = some n) (hn : 1 ≤ n) :
    ∃ s, alignUp a b = .ok s ∧ s.int? = some (roundUp m n) := by
  have hle : b.le (.int 1) = decide (n ≤ 1) := Scalar.le_of_int? hb rfl
  by_cases h : n = 1
  · subst h
    refine ⟨a, ?_, ?_⟩
    · rw [alignUp, hle]
      rfl
    · simp [ha, roundUp]
  · have hreach : minus (.int (m + n)) (.int 1) = .ok (.int (m + n - 1)) := rfl
    have hquot : sized Scalar.floorDiv? (.int (m + n - 1)) b = .ok (.int ((m + n - 1) / n)) := by
      rw [sized, Scalar.floorDiv?, Scalar.combine?, hb]
      show Except.ok (Scalar.int ((m + n - 1).fdiv n)) = _
      rw [Int.fdiv_eq_ediv_of_nonneg _ (by omega)]
    refine ⟨.int (roundUp m n), ?_, rfl⟩
    rw [alignUp, hle, plus_of_int? ha hb]
    simp only [show ¬n ≤ 1 by omega]
    show (do
      let reach ← minus (.int (m + n)) (.int 1)
      times (← sized Scalar.floorDiv? reach b) b) = _
    show (do times (← sized Scalar.floorDiv? (.int (m + n - 1)) b) b) = _
    rw [hquot]
    exact times_of_int? rfl hb

end Layout

/-! ## Members and layouts -/

/-- A declared member in whole numbers: the size of an element, its alignment, the number of
elements, and the width if it is a bit-field. -/
structure Extent where
  name : Json
  size : Int
  alignment : Int
  count : Int
  width : Option Int

structure Extent.Measures (e : Extent) (m : MemberDecl) (s : MemberShape) : Prop where
  name : m.name = e.name
  size : s.size.whole? = some e.size
  alignment : s.alignment.whole? = some e.alignment
  count : s.count.whole? = some e.count
  width : e.width.elim (m.isBitField = false) fun w => m.bitWidth.whole? = some w

/-- Where a member lies, in whole numbers; the bits of a bit-field are the first one in its storage
unit, and their number. -/
structure Spot where
  name : Json
  offset : Int
  size : Int
  alignment : Int
  bits : Option (Int × Int)

structure Spot.Reads (b : Spot) (m : MemberLayout) : Prop where
  name : m.name = b.name
  offset : m.offset.int? = some b.offset
  size : m.size.int? = some b.size
  alignment : m.alignment.int? = some b.alignment
  bits : b.bits.elim (m.bitOffset = none) fun (first, width) =>
    m.bitOffset.bind Scalar.int? = some first ∧ m.bitWidth.whole? = some width

structure Plan where
  size : Int
  alignment : Int
  padding : Int
  spots : List Spot

structure Plan.Reads (g : Plan) (l : Layout) : Prop where
  size : l.size.int? = some g.size
  alignment : l.alignment.int? = some g.alignment
  padding : l.padding.int? = some g.padding
  spots : Forall₂ Spot.Reads g.spots l.members

namespace Extent

variable {e : Extent} {m : MemberDecl} {s : MemberShape}

def bytes (e : Extent) : Int := e.size * e.count

def greatestAlignment (es : List Extent) : Int := es.foldl (fun k e => max k e.alignment) 1

def largest (es : List Extent) : Int := es.foldl (fun n e => max n e.bytes) 0

theorem le_foldl_max (f : Extent → Int) (es : List Extent) (n : Int) :
    n ≤ es.foldl (fun n e => max n (f e)) n := by
  induction es generalizing n with
  | nil => exact le_refl n
  | cons e es ih => exact (le_max_left n (f e)).trans (ih _)

theorem one_le_greatestAlignment (es : List Extent) : 1 ≤ greatestAlignment es :=
  le_foldl_max alignment es 1

theorem bytes_le_largest {es : List Extent} (he : e ∈ es) : e.bytes ≤ largest es := by
  obtain ⟨before, after, rfl⟩ := append_of_mem he
  rw [largest, foldl_append]
  exact (le_max_right _ _).trans (le_foldl_max bytes after _)

theorem Measures.bytes_eq (h : e.Measures m s) : s.bytes = .ok (.int e.bytes) := by
  obtain ⟨size, hsize, hsize'⟩ := Json.exists_asScalar h.size
  obtain ⟨count, hcount, hcount'⟩ := Json.exists_asScalar h.count
  rw [MemberShape.bytes, hsize]
  rw [hcount]
  exact Layout.times_of_int? hsize' hcount'

theorem Measures.isBitField (h : e.Measures m s) : m.isBitField = e.width.isSome := by
  have hwidth := h.width
  cases hw : e.width with
  | none => rwa [hw] at hwidth
  | some w =>
    rw [hw] at hwidth
    rw [MemberDecl.isBitField, Json.isNull_of_whole? hwidth]
    rfl

end Extent

namespace Layout

def ofShapes (isUnion : Bool) (xs : List (MemberDecl × MemberShape)) : Except Error Layout :=
  if isUnion then do (← xs.foldlM (fun o x => o.place x.1 x.2) Overlay.start).toLayout
  else do (← xs.foldlM (fun p x => p.place x.1 x.2) Placement.start).toLayout

/-! ## Structs -/

structure OpenBits where
  start : Int
  size : Int
  used : Int

/-- How far the placing of a struct's members has come, in whole numbers. -/
structure Packing where
  offset : Int
  alignment : Int
  dataBytes : Int
  spots : List Spot
  unit : Option OpenBits

namespace Packing

def start : Packing := ⟨0, 1, 0, [], none⟩

/-- Takes bytes at the next multiple of a member's alignment, for the member or for a storage unit
that it opens. -/
def takeRegion (q : Packing) (e : Extent) (bytes : Int) (width : Option Int) : Packing :=
  let offset := roundUp q.offset e.alignment
  { q with
    offset := offset + bytes
    dataBytes := q.dataBytes + bytes
    spots := q.spots ++ [⟨e.name, offset, bytes, e.alignment, width.map fun w => (0, w)⟩]
    unit := width.map fun w => ⟨offset, bytes, w⟩ }

def takeBits (q : Packing) (u : OpenBits) (e : Extent) (width : Int) : Packing :=
  { q with
    spots := q.spots ++ [⟨e.name, u.start, e.size, e.alignment, some (u.used, width)⟩]
    unit := some { u with used := u.used + width } }

def endUnit (q : Packing) (e : Extent) : Packing :=
  { q with unit := none, offset := roundUp q.offset e.alignment }

/-- Whether a bit-field shares an open storage unit: it has the size of the unit and fits in. -/
def Shares (u : OpenBits) (e : Extent) (width : Int) : Prop :=
  u.size = e.size ∧ u.used + width ≤ u.size * 8

instance (u : OpenBits) (e : Extent) (width : Int) : Decidable (Shares u e width) :=
  inferInstanceAs (Decidable (_ ∧ _))

def placeBits (q : Packing) (e : Extent) (width : Int) : Packing :=
  if width = 0 then q.endUnit e
  else
    match q.unit with
    | some u =>
      if Shares u e width then q.takeBits u e width else q.takeRegion e e.size (some width)
    | none => q.takeRegion e e.size (some width)

def place (q : Packing) (e : Extent) : Packing :=
  let q := { q with alignment := max q.alignment e.alignment }
  match e.width with
  | some width => q.placeBits e width
  | none => q.takeRegion e e.bytes none

def toPlan (q : Packing) : Plan :=
  let size := roundUp q.offset q.alignment
  ⟨size, q.alignment, size - q.dataBytes, q.spots⟩

structure Reads (q : Packing) (p : Placement) : Prop where
  offset : p.offset.int? = some q.offset
  alignment : p.alignment.int? = some q.alignment
  dataBytes : p.dataBytes.int? = some q.dataBytes
  spots : Forall₂ Spot.Reads q.spots p.placed
  unit : Option.Rel (fun (u : OpenBits) (v : OpenUnit) =>
    v.start.int? = some u.start ∧ v.size.int? = some u.size ∧ v.bitsUsed.whole? = some u.used)
    q.unit p.unit

variable {q : Packing} {p : Placement} {e : Extent} {m : MemberDecl} {s : MemberShape}
  {alignment : Scalar}

theorem reads_start : start.Reads .start := ⟨rfl, rfl, rfl, .nil, .none⟩

theorem Reads.withAlignment (h : q.Reads p) (hk : alignment.int? = some e.alignment) :
    Reads { q with alignment := max q.alignment e.alignment }
      { p with alignment := p.alignment.max alignment } :=
  { h with alignment := Scalar.int?_max h.alignment hk }

theorem Reads.exists_plain (h : q.Reads p) (he : e.Measures m s)
    (hk : alignment.int? = some e.alignment) (hpos : 1 ≤ e.alignment) :
    ∃ p', p.plain m s alignment = .ok p' ∧ (q.takeRegion e e.bytes none).Reads p' := by
  obtain ⟨o, ho, ho'⟩ := exists_alignUp h.offset hk hpos
  have hbytes : (Scalar.int e.bytes).int? = some e.bytes := rfl
  simp only [Placement.plain, ho, he.bytes_eq, plus_of_int? ho' hbytes,
    plus_of_int? h.dataBytes hbytes, ok_bind]
  refine ⟨_, rfl, ?_⟩
  exact
    { offset := rfl
      alignment := h.alignment
      dataBytes := rfl
      spots := rel_append h.spots (.cons ⟨he.name, ho', rfl, hk, rfl⟩ .nil)
      unit := .none }

section BitFields

variable {width : Int}

theorem Reads.exists_openUnit (h : q.Reads p) (he : e.Measures m s)
    (hk : alignment.int? = some e.alignment) (hpos : 1 ≤ e.alignment)
    (hw : m.bitWidth.whole? = some width) :
    ∃ p', p.openUnit m s alignment = .ok p' ∧ (q.takeRegion e e.size (some width)).Reads p' := by
  obtain ⟨o, ho, ho'⟩ := exists_alignUp h.offset hk hpos
  obtain ⟨size, hsize, hsize'⟩ := Json.exists_asScalar he.size
  simp only [Placement.openUnit, ho, hsize, plus_of_int? ho' hsize',
    plus_of_int? h.dataBytes hsize', ok_bind]
  refine ⟨_, rfl, ?_⟩
  exact
    { offset := rfl
      alignment := h.alignment
      dataBytes := rfl
      spots := rel_append h.spots (.cons ⟨he.name, ho', hsize', hk, rfl, hw⟩ .nil)
      unit := .some ⟨ho', hsize', hw⟩ }

theorem Reads.exists_shareUnit {u : OpenBits} {v : OpenUnit} (h : q.Reads p) (he : e.Measures m s)
    (hk : alignment.int? = some e.alignment) (hpos : 1 ≤ e.alignment)
    (hw : m.bitWidth.whole? = some width) (hstart : v.start.int? = some u.start)
    (hsize : v.size.int? = some u.size) (hused : v.bitsUsed.whole? = some u.used) :
    ∃ p', p.shareUnit v m s alignment = .ok p' ∧
      Reads (if u.used + width ≤ u.size * 8 then q.takeBits u e width
        else q.takeRegion e e.size (some width)) p' := by
  obtain ⟨used, hused, hused'⟩ := Json.exists_asScalar hused
  obtain ⟨taken, htaken, htaken'⟩ := Json.exists_asScalar hw
  obtain ⟨own, hown, hown'⟩ := Json.exists_scalar_of_whole? he.size
  have hroom : times v.size (.int 8) = .ok (.int (u.size * 8)) := times_of_int? hsize rfl
  have hfits : (Scalar.int (u.used + width)).le (.int (u.size * 8))
      = decide (u.used + width ≤ u.size * 8) := Scalar.le_of_int? rfl rfl
  simp only [Placement.shareUnit, hused, htaken, plus_of_int? hused' htaken', hroom, ok_bind, hfits,
    hown, decide_eq_true_eq]
  split
  · refine ⟨_, rfl, ?_⟩
    exact
      { offset := h.offset
        alignment := h.alignment
        dataBytes := h.dataBytes
        spots := rel_append h.spots (.cons ⟨he.name, hstart, hown', hk, hused', hw⟩ .nil)
        unit := .some ⟨hstart, hsize, rfl⟩ }
  · exact h.exists_openUnit he hk hpos hw

theorem Reads.exists_bitField (h : q.Reads p) (he : e.Measures m s)
    (hk : alignment.int? = some e.alignment) (hpos : 1 ≤ e.alignment)
    (hw : m.bitWidth.whole? = some width) :
    ∃ p', p.bitField m s alignment = .ok p' ∧ (q.placeBits e width).Reads p' := by
  rw [Placement.bitField, Json.isVoid_of_whole? hw, placeBits]
  by_cases hzero : width = 0
  · obtain ⟨o, ho, ho'⟩ := exists_alignUp h.offset hk hpos
    refine ⟨_, by simp only [hzero, ho]; rfl, ?_⟩
    rw [if_pos hzero]
    exact { h with offset := ho', unit := .none }
  simp only [hzero]
  -- Both sides have an open unit or neither has.
  have hunit := h.unit
  cases hq : q.unit with
  | none =>
    rw [hq] at hunit
    cases hp : p.unit with
    | none => exact h.exists_openUnit he hk hpos hw
    | some v => rw [hp] at hunit; cases hunit
  | some u =>
    rw [hq] at hunit
    cases hp : p.unit with
    | none => rw [hp] at hunit; cases hunit
    | some v =>
      rw [hp] at hunit
      cases hunit with
      | some hv =>
        obtain ⟨hstart, hsize, hused⟩ := hv
        have hequals : (ofScalar v.size).equals s.size = decide (u.size = e.size) := by
          have hv : (ofScalar v.size).whole? = some u.size :=
            (whole?_ofScalar _).trans hsize
          rw [equals_of_value? (value?_of_whole? hv) (value?_of_whole? he.size)]
          simp
        simp only [Option.filter_some, hequals, Shares]
        by_cases hsame : u.size = e.size
        · simp only [hsame, true_and]
          have hshare := h.exists_shareUnit he hk hpos hw hstart hsize hused
          rwa [hsame] at hshare
        · simp only [hsame]
          exact h.exists_openUnit he hk hpos hw

end BitFields

theorem Reads.exists_place (h : q.Reads p) (he : e.Measures m s) (hpos : 1 ≤ e.alignment) :
    ∃ p', p.place m s = .ok p' ∧ (q.place e).Reads p' := by
  obtain ⟨alignment, hk, hk'⟩ := Json.exists_asScalar he.alignment
  have hwidth := he.width
  simp only [Placement.place, hk, he.isBitField]
  cases hw : e.width with
  | none =>
    simp only [place, hw]
    exact (h.withAlignment hk').exists_plain he hk' hpos
  | some width =>
    rw [hw] at hwidth
    simp only [place, hw]
    exact (h.withAlignment hk').exists_bitField he hk' hpos hwidth

theorem Reads.exists_foldlM {xs : List (MemberDecl × MemberShape)} {es : List Extent}
    (h : q.Reads p) (hes : Forall₂ (fun e x => e.Measures x.1 x.2) es xs)
    (hpos : ∀ e ∈ es, 1 ≤ e.alignment) :
    ∃ p', xs.foldlM (fun p x => p.place x.1 x.2) p = .ok p' ∧ (es.foldl place q).Reads p' := by
  induction hes generalizing q p with
  | nil => exact ⟨p, rfl, h⟩
  | cons he _ ih =>
    obtain ⟨p1, hplace, h1⟩ := h.exists_place he (hpos _ mem_cons_self)
    obtain ⟨p', hrest, h'⟩ := ih h1 fun e he => hpos e (mem_cons_of_mem _ he)
    exact ⟨p', by rw [foldlM_cons, hplace, ok_bind, hrest], h'⟩

theorem alignment_place (q : Packing) (e : Extent) :
    (q.place e).alignment = max q.alignment e.alignment := by
  unfold place placeBits
  dsimp only
  split
  · split
    · rfl
    · split
      · split <;> rfl
      · rfl
  · rfl

theorem alignment_foldl (es : List Extent) (q : Packing) :
    (es.foldl place q).alignment = es.foldl (fun k e => max k e.alignment) q.alignment := by
  induction es generalizing q with
  | nil => rfl
  | cons e es ih => rw [foldl_cons, foldl_cons, ih, alignment_place]

theorem Reads.exists_toLayout (h : q.Reads p) (hpos : 1 ≤ q.alignment) :
    ∃ l, p.toLayout = .ok l ∧ q.toPlan.Reads l := by
  obtain ⟨size, hsize, hsize'⟩ := exists_alignUp h.offset h.alignment hpos
  simp only [Placement.toLayout, hsize, minus_of_int? hsize' h.dataBytes, ok_bind]
  refine ⟨_, rfl, ?_⟩
  exact { size := hsize', alignment := h.alignment, padding := rfl, spots := h.spots }

theorem exists_ofShapes {xs : List (MemberDecl × MemberShape)} {es : List Extent}
    (hes : Forall₂ (fun e x => e.Measures x.1 x.2) es xs)
    (hpos : ∀ e ∈ es, 1 ≤ e.alignment) :
    ∃ l, ofShapes false xs = .ok l ∧ (es.foldl place start).toPlan.Reads l := by
  obtain ⟨p, hp, hread⟩ := reads_start.exists_foldlM hes hpos
  have hone : 1 ≤ (es.foldl place start).alignment := by
    rw [alignment_foldl]
    exact Extent.one_le_greatestAlignment es
  obtain ⟨l, hl, hread'⟩ := hread.exists_toLayout hone
  refine ⟨l, ?_, hread'⟩
  simp only [ofShapes, hp, ok_bind, hl, Bool.false_eq_true, if_false]

end Packing

/-! ## Unions -/

namespace Overlay

def spot (e : Extent) : Spot := ⟨e.name, 0, e.bytes, e.alignment, e.width.map fun w => (0, w)⟩

def plan (es : List Extent) : Plan :=
  let size := roundUp (Extent.largest es) (Extent.greatestAlignment es)
  ⟨size, Extent.greatestAlignment es, size - Extent.largest es, es.map spot⟩

structure Reads (es : List Extent) (o : Overlay) : Prop where
  alignment : o.alignment.int? = some (Extent.greatestAlignment es)
  largest : o.largest.int? = some (Extent.largest es)
  spots : Forall₂ Spot.Reads (es.map spot) o.placed

variable {o : Overlay} {es : List Extent} {e : Extent} {m : MemberDecl} {s : MemberShape}

theorem Reads.exists_place (h : Reads es o) (he : e.Measures m s) :
    ∃ o', o.place m s = .ok o' ∧ Reads (es ++ [e]) o' := by
  obtain ⟨alignment, hk, hk'⟩ := Json.exists_asScalar he.alignment
  have hspot : (spot e).Reads ⟨m.name, .int 0, .int e.bytes, alignment,
      if m.isBitField then some (.int 0) else none, m.bitWidth⟩ := by
    have hwidth := he.width
    refine ⟨he.name, rfl, rfl, hk', ?_⟩
    rw [he.isBitField]
    cases hw : e.width with
    | none => simp [spot, hw]
    | some w =>
      rw [hw] at hwidth
      simp only [spot, hw]
      exact ⟨rfl, hwidth⟩
  refine ⟨_, by simp only [place, hk, he.bytes_eq]; rfl, ?_⟩
  have hlast : Extent.greatestAlignment (es ++ [e]) = max (Extent.greatestAlignment es) e.alignment
      ∧ Extent.largest (es ++ [e]) = max (Extent.largest es) e.bytes := by
    simp [Extent.greatestAlignment, Extent.largest]
  refine ⟨?_, ?_, ?_⟩
  · rw [hlast.1]
    exact Scalar.int?_max h.alignment hk'
  · rw [hlast.2]
    exact Scalar.int?_max h.largest rfl
  · rw [map_append]
    exact rel_append h.spots (.cons hspot .nil)

theorem Reads.exists_foldlM {xs : List (MemberDecl × MemberShape)} {fs : List Extent}
    (h : Reads es o) (hfs : Forall₂ (fun e x => e.Measures x.1 x.2) fs xs) :
    ∃ o', xs.foldlM (fun o x => o.place x.1 x.2) o = .ok o' ∧ Reads (es ++ fs) o' := by
  induction hfs generalizing es o with
  | nil => exact ⟨o, rfl, by rwa [append_nil]⟩
  | cons he _ ih =>
    obtain ⟨o1, hplace, h1⟩ := h.exists_place he
    obtain ⟨o', hrest, h'⟩ := ih h1
    exact ⟨o', by rw [foldlM_cons, hplace, ok_bind, hrest], by rwa [append_cons]⟩

theorem Reads.exists_toLayout (h : Reads es o) : ∃ l, o.toLayout = .ok l ∧ (plan es).Reads l := by
  obtain ⟨size, hsize, hsize'⟩ :=
    exists_alignUp h.largest h.alignment (Extent.one_le_greatestAlignment es)
  simp only [Overlay.toLayout, hsize, minus_of_int? hsize' h.largest, ok_bind]
  refine ⟨_, rfl, ?_⟩
  exact { size := hsize', alignment := h.alignment, padding := rfl, spots := h.spots }

theorem exists_ofShapes {xs : List (MemberDecl × MemberShape)}
    (hes : Forall₂ (fun e x => e.Measures x.1 x.2) es xs) :
    ∃ l, ofShapes true xs = .ok l ∧ (plan es).Reads l := by
  have hstart : Reads [] .start := ⟨rfl, rfl, .nil⟩
  obtain ⟨o, ho, hread⟩ := hstart.exists_foldlM hes
  obtain ⟨l, hl, hread'⟩ := hread.exists_toLayout
  exact ⟨l, by simp only [ofShapes, ho, ok_bind, hl, if_true], hread'⟩

end Overlay

end Layout

end Branchwise
