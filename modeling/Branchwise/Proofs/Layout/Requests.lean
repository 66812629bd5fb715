import Branchwise.Proofs.Layout.Containment

/-!
# Layouts and earlier requests

What is kept of earlier requests are layouts, and with a layout all those that it is put together
from.  So a request that finds some of them ends like one that finds none, unless two aggregates
share a name, the one inside the other: the inner one is then taken for the outer one.
-/

namespace Branchwise

open Laying List AggregateDecl

namespace Declarations

variable {d : Declarations} {aliases : Option AliasTable} {a b : AggregateDecl} {l : Layout}
  {c c' : LayoutCache} {inner : AggregateDecl → Laying Layout} {r : LayoutRequest}

/-! ## Layouts without computations -/

/-- An aggregate has a layout: its members are placed by layouts of what it embeds. -/
inductive HasLayout (d : Declarations) (aliases : Option AliasTable) :
    AggregateDecl → Layout → Prop
  | intro {a : AggregateDecl} {l : Layout} (layouts : AggregateDecl → Layout)
      (hinner : ∀ b, d.Embeds aliases a b → HasLayout d aliases b (layouts b))
      (h : ∀ c, ((d.placeMembers aliases (fun b => pure (layouts b)) a).run.run c).1 = .ok l) :
      HasLayout d aliases a l

theorem HasLayout.unique {l' : Layout} (h : d.HasLayout aliases a l)
    (h' : d.HasLayout aliases a l') : l = l' := by
  induction h generalizing l' with
  | @intro a l layouts hinner hl ih =>
    obtain ⟨layouts', hinner', hl'⟩ := h'
    have hsame : Tracks (fun _ _ => True) (fun _ => False)
        (d.placeMembers aliases (fun b => pure (layouts b)) a)
        (d.placeMembers aliases (fun b => pure (layouts' b)) a) :=
      tracks_placeMembers fun b hb => ih b hb (hinner' b hb) ▸ tracks_pure _
    rcases hsame .empty .empty trivial with ⟨e, -, hfalse⟩ | ⟨heq, -⟩
    · exact hfalse.elim
    · rw [hl, hl'] at heq
      exact Except.ok.inj heq

theorem HasLayout.not_transGen (h : d.HasLayout aliases a l) :
    ¬Relation.TransGen (d.Embeds aliases) a a := by
  induction h with
  | intro layouts hinner _ ih =>
    intro hcycle
    obtain ⟨b, hab, hba⟩ := Relation.TransGen.head'_iff.mp hcycle
    exact ih b hab (Relation.TransGen.tail' hba hab)

theorem exists_layouts (d : Declarations) (aliases : Option AliasTable) :
    ∃ layouts : AggregateDecl → Layout, ∀ b l, d.HasLayout aliases b l → layouts b = l := by
  have hone (b : AggregateDecl) : ∃ l, ∀ l', d.HasLayout aliases b l' → l = l' := by
    by_cases h : ∃ l, d.HasLayout aliases b l
    · obtain ⟨l, hl⟩ := h
      exact ⟨l, fun l' hl' => hl.unique hl'⟩
    · exact ⟨default, fun l' hl' => absurd ⟨l', hl'⟩ h⟩
  exact Classical.axiomOfChoice hone

/-! ## What is kept -/

def Holds (a : AggregateDecl) (c : LayoutCache) : Prop := ¬Lacks a c

theorem holds_iff : Holds a c ↔ ∃ l, c.get? a.identity = some l := by
  rw [Holds, lacks_iff]
  exact Option.ne_none_iff_exists'

theorem holds_iff_exists_mem : Holds a c ↔ ∃ k ∈ c.keys, k == a.identity := by
  simp only [Holds, Lacks, Table.keys, mem_map, not_forall, not_not]
  constructor
  · rintro ⟨x, hx, hbeq⟩
    exact ⟨x.1, ⟨x, hx, rfl⟩, hbeq⟩
  · rintro ⟨_, ⟨x, hx, rfl⟩, hbeq⟩
    exact ⟨x, hx, hbeq⟩

theorem Holds.put (h : Holds b c) (i : Identity) (l : Layout) : Holds b (c.put i l) := by
  obtain ⟨k, hk, hbeq⟩ := holds_iff_exists_mem.mp h
  refine holds_iff_exists_mem.mpr ⟨k, ?_, hbeq⟩
  rw [Table.keys_put]
  split
  · exact hk
  · exact mem_append_left _ hk

theorem Distinct.holds_put (hd : d.Distinct) (ha : a ∈ d.allAggregates) (c : LayoutCache)
    (l : Layout) : Holds a (c.put a.identity l) := by
  have hkey := hd.isKey_of_mem (mem_allAggregates.mp ha)
  have hself : a.identity == a.identity := (Identity.beq_iff_mark hkey hkey).mpr rfl
  by_cases hcontains : c.contains a.identity
  · rw [Table.contains_eq_isSome_get?] at hcontains
    exact (holds_iff.mpr (Option.isSome_iff_exists.mp hcontains)).put _ _
  · refine holds_iff_exists_mem.mpr ⟨a.identity, ?_, hself⟩
    rw [Table.keys_put, if_neg hcontains]
    exact mem_append_right _ mem_cons_self

theorem Distinct.holds_of_put (hd : d.Distinct) (ha : a ∈ d.allAggregates)
    (hb : b ∈ d.allAggregates) (h : Holds b (c.put a.identity l)) : Holds b c ∨ b = a := by
  by_cases hbeq : a.identity == b.identity
  · exact .inr (hd.eq_of_beq ha hb hbeq).symm
  · exact .inl fun hlacks => h (hlacks.put hbeq l)

theorem preserves_holds (fuel : Nat) (inside : List Json) (a : AggregateDecl) :
    Preserves (Holds b) (d.layoutInside aliases fuel inside a) := by
  induction fuel generalizing inside a with
  | zero => exact preserves_throw _
  | succ fuel ih =>
    have hplaced : Preserves (Holds b)
        (d.placeMembers aliases (d.layoutInside aliases fuel (inside ++ [a.name])) a) :=
      preserves_placeMembers fun b' _ => ih (inside ++ [a.name]) b'
    exact (settles_layoutInside_succ (fun _ _ _ _ => trivial) (fun _ => trivial)
      (fun _ => hplaced.settles) fun c l hc _ => hc.put _ _).preserves

/-- What is kept are layouts of aggregates, and with a layout those of all embedded aggregates. -/
def Sound (d : Declarations) (aliases : Option AliasTable) (c : LayoutCache) : Prop :=
  ∀ x ∈ c.entries, ∃ a ∈ d.allAggregates, x.1 = a.identity ∧ d.HasLayout aliases a x.2 ∧
    ∀ b, d.Embeds aliases a b → Holds b c

theorem sound_empty : d.Sound aliases .empty := fun _ hx => absurd hx not_mem_nil

theorem Sound.of_get? (h : d.Sound aliases c) (hd : d.Distinct) (ha : a ∈ d.allAggregates)
    (hl : c.get? a.identity = some l) :
    d.HasLayout aliases a l ∧ ∀ b, d.Embeds aliases a b → Holds b c := by
  obtain ⟨k, hbeq, hmem⟩ := Table.exists_mem_of_get? hl
  obtain ⟨b, hb, rfl, hlayout⟩ := h _ hmem
  obtain rfl := hd.eq_of_beq hb ha hbeq
  exact hlayout

theorem Sound.put (h : d.Sound aliases c) (hd : d.Distinct) (ha : a ∈ d.allAggregates)
    (hl : d.HasLayout aliases a l) (hembeds : ∀ b, d.Embeds aliases a b → Holds b c) :
    d.Sound aliases (c.put a.identity l) := by
  intro x hx
  rcases Table.mem_entries_put hx with hx | rfl | ⟨w, hbeq, hx, hl'⟩
  · obtain ⟨b, hb, hk, hlayout, hinner⟩ := h x hx
    exact ⟨b, hb, hk, hlayout, fun b' hb' => (hinner b' hb').put _ _⟩
  · exact ⟨a, ha, rfl, hl, fun b hb => (hembeds b hb).put _ _⟩
  · obtain ⟨b, hb, hk, -, hinner⟩ := h _ hx
    obtain rfl := hd.eq_of_beq hb ha (hk ▸ hbeq)
    exact ⟨b, hb, hk, hl' ▸ hl, fun b' hb' => (hinner b' hb').put _ _⟩

/-- A computation keeps layouts only, and its result is one of the aggregate, which is kept then. -/
def Lays (d : Declarations) (aliases : Option AliasTable) (a : AggregateDecl) (x : Laying Layout) :
    Prop :=
  ∀ c, d.Sound aliases c → d.Sound aliases (x.run.run c).2 ∧
    ∀ l, (x.run.run c).1 = .ok l → d.HasLayout aliases a l ∧ Holds a (x.run.run c).2

theorem hasLayout_of_placeMembers (hd : d.Distinct)
    (hlays : ∀ b ∈ d.allAggregates, d.Lays aliases b (inner b))
    (hgrows : ∀ b b', Preserves (Holds b') (inner b)) (hc : d.Sound aliases c)
    (h : (d.placeMembers aliases inner a).run.run c = (.ok l, c')) :
    d.Sound aliases c' ∧ d.HasLayout aliases a l ∧ ∀ b, d.Embeds aliases a b → Holds b c' := by
  have hsound : ∀ b ∈ d.allAggregates, Preserves (d.Sound aliases) (inner b) :=
    fun b hb c hc => (hlays b hb c hc).1
  have hc' : d.Sound aliases c' := by
    have hplaced : Preserves (d.Sound aliases) (d.placeMembers aliases inner a) :=
      preserves_placeMembers hsound
    have hkept := hplaced c hc
    rwa [h] at hkept
  have hembeds (b : AggregateDecl) (hb : d.Embeds aliases a b) : Holds b c' := by
    obtain ⟨m, hm, hsized⟩ := id hb
    obtain ⟨ss, hss, -⟩ := exists_measure h
    obtain ⟨s, c1, c2, hshape, hc1, hlater⟩ := exists_run_of_mem (J := Holds b)
      (fun m _ => preserves_memberShape hsound m)
      (fun m _ => preserves_memberShape (fun b' _ => hgrows b' b) m) hss hc hm
    obtain ⟨l', hinner⟩ := exists_inner_of_memberShape hsized hshape
    have hholds := ((hlays b hb.mem c1 hc1).2 l' (by rw [hinner])).2
    rw [hinner] at hholds
    exact hlater hholds
  refine ⟨hc', ?_, hembeds⟩
  -- The layouts that were computed on the way are those that the embedded aggregates have.
  obtain ⟨layouts, hlayouts⟩ := d.exists_layouts aliases
  have hsame : Tracks (fun c _ => d.Sound aliases c) (fun _ => True)
      (d.placeMembers aliases inner a)
      (d.placeMembers aliases (fun b => pure (layouts b)) a) := by
    refine tracks_placeMembers fun b hb c1 c2 hc1 => ?_
    obtain ⟨hkept, hresult⟩ := hlays b hb.mem c1 hc1
    rcases hrun : (inner b).run.run c1 with ⟨e | l', c3⟩
    · exact .inl ⟨e, rfl, trivial⟩
    · rw [hrun] at hkept hresult
      refine .inr ⟨?_, hkept⟩
      rw [hlayouts b l' (hresult l' rfl).1]
      rfl
  refine .intro layouts (fun b hb => ?_) fun c1 => ?_
  · obtain ⟨l', hl'⟩ := holds_iff.mp (hembeds b hb)
    have hlayout := (hc'.of_get? hd hb.mem hl').1
    rwa [hlayouts b l' hlayout]
  · rcases hsame c c1 hc with ⟨e, he, -⟩ | ⟨heq, -⟩
    · rw [h] at he
      cases he
    · rw [← heq, h]

/-- What a computation of a layout comes to if its result is kept. -/
def keep (a : AggregateDecl) (r : Except Error Layout × LayoutCache) :
    Except Error Layout × LayoutCache :=
  match r with
  | (.ok l, c) => (.ok l, c.put a.identity l)
  | (.error e, c) => (.error e, c)

theorem fst_keep (a : AggregateDecl) (r : Except Error Layout × LayoutCache) :
    (keep a r).1 = r.1 := by
  obtain ⟨_ | _, _⟩ := r <;> rfl

theorem run_layoutInside_of_new {fuel : Nat} {inside : List Json}
    (hget : c.get? a.identity = none) (hname : ¬inside.contains a.name) :
    (d.layoutInside aliases (fuel + 1) inside a).run.run c =
      keep a ((d.placeMembers aliases
        (d.layoutInside aliases fuel (inside ++ [a.name])) a).run.run c) := by
  rw [run_layoutInside_succ, hget]
  rw [if_neg hname]
  rfl

theorem lays_layoutInside (hd : d.Distinct) (fuel : Nat) (inside : List Json)
    (ha : a ∈ d.allAggregates) : d.Lays aliases a (d.layoutInside aliases fuel inside a) := by
  induction fuel generalizing inside a with
  | zero => exact fun c hc => ⟨hc, fun _ hl => by cases hl⟩
  | succ fuel ih =>
    intro c hc
    cases hget : c.get? a.identity with
    | some l =>
      rw [run_layoutInside_succ, hget]
      refine ⟨hc, fun l' hl' => ?_⟩
      cases hl'
      exact ⟨(hc.of_get? hd ha hget).1, holds_iff.mpr ⟨l, hget⟩⟩
    | none =>
      by_cases hname : inside.contains a.name
      · rw [run_layoutInside_succ, hget]
        rw [if_pos hname]
        exact ⟨hc, fun _ hl => by cases hl⟩
      rw [run_layoutInside_of_new hget hname]
      have hlays : ∀ b ∈ d.allAggregates,
          d.Lays aliases b (d.layoutInside aliases fuel (inside ++ [a.name]) b) :=
        fun b hb => ih _ hb
      rcases hrun : (d.placeMembers aliases
        (d.layoutInside aliases fuel (inside ++ [a.name])) a).run.run c with ⟨e | l, c'⟩
      · have hplaced : Preserves (d.Sound aliases)
            (d.placeMembers aliases (d.layoutInside aliases fuel (inside ++ [a.name])) a) :=
          preserves_placeMembers fun b hb c hc => (hlays b hb c hc).1
        have hkept := hplaced c hc
        rw [hrun] at hkept
        exact ⟨hkept, fun _ hl => by cases hl⟩
      · obtain ⟨hc', hlayout, hembeds⟩ :=
          hasLayout_of_placeMembers hd hlays (fun b _ => preserves_holds fuel _ b) hc hrun
        refine ⟨hc'.put hd ha hlayout hembeds, fun l' hl' => ?_⟩
        cases hl'
        exact ⟨hlayout, hd.holds_put ha c' l⟩

/-! ## With fewer and with more layouts kept -/

/-- Layouts are kept, in the second case of all aggregates of the first. -/
structure Below (d : Declarations) (aliases : Option AliasTable) (c c' : LayoutCache) : Prop where
  fewer : d.Sound aliases c
  more : d.Sound aliases c'
  holds : ∀ a ∈ d.allAggregates, Holds a c → Holds a c'

theorem Below.get? (h : d.Below aliases c c') (hd : d.Distinct) (ha : a ∈ d.allAggregates)
    (hl : c.get? a.identity = some l) : c'.get? a.identity = some l := by
  obtain ⟨l', hl'⟩ := holds_iff.mp (h.holds a ha (holds_iff.mpr ⟨l, hl⟩))
  rwa [(h.fewer.of_get? hd ha hl).1.unique (h.more.of_get? hd ha hl').1]

theorem Below.keep_left {r : Except Error Layout × LayoutCache} (h : d.Below aliases r.2 c')
    (hd : d.Distinct) (ha : a ∈ d.allAggregates) (hsound : d.Sound aliases (keep a r).2)
    (hheld : Holds a c') : d.Below aliases (keep a r).2 c' := by
  obtain ⟨e | l, c⟩ := r
  · exact h
  · refine ⟨hsound, h.more, fun b hb hholds => ?_⟩
    rcases hd.holds_of_put ha hb hholds with hholds | rfl
    · exact h.holds b hb hholds
    · exact hheld

theorem Below.keep {r r' : Except Error Layout × LayoutCache} (h : d.Below aliases r.2 r'.2)
    (heq : r.1 = r'.1) (hd : d.Distinct) (ha : a ∈ d.allAggregates)
    (hsound : d.Sound aliases (keep a r).2) (hsound' : d.Sound aliases (keep a r').2) :
    d.Below aliases (keep a r).2 (keep a r').2 := by
  obtain ⟨e | l, c⟩ := r <;> obtain ⟨e' | l', c'⟩ := r' <;> cases heq
  · exact h
  · have hbelow : d.Below aliases c (c'.put a.identity l) :=
      ⟨h.fewer, hsound', fun b hb hholds => (h.holds b hb hholds).put _ _⟩
    exact Below.keep_left (r := (.ok l, c)) hbelow hd ha hsound (hd.holds_put ha c' l)

/-- The aggregates that a layout is inside of: distinct ones of the unit, each embedding the next,
from a first one on. -/
structure Descends (d : Declarations) (aliases : Option AliasTable) (first : AggregateDecl)
    (outer : List AggregateDecl) (a : AggregateDecl) : Prop where
  mem : ∀ b ∈ outer, b ∈ d.allAggregates
  nodup : outer.Nodup
  head : (outer ++ [a]).head? = some first
  chain : (outer ++ [a]).IsChain (d.Embeds aliases)

variable {first : AggregateDecl} {outer : List AggregateDecl}

section

variable (h : d.Descends aliases first outer a)
include h

theorem Descends.concat (ha : a ∈ d.allAggregates) (hnew : a ∉ outer) (hab : d.Embeds aliases a b) :
    d.Descends aliases first (outer ++ [a]) b where
  mem := forall_mem_append.mpr ⟨h.mem, forall_mem_singleton.mpr ha⟩
  nodup := nodup_append.mpr ⟨h.nodup, nodup_singleton a, fun x hx y hy hxy =>
    hnew (mem_singleton.mp hy ▸ hxy ▸ hx)⟩
  head := by rw [head?_append, h.head, Option.some_or]
  chain := by
    refine isChain_append.mpr ⟨h.chain, .singleton b, fun x hx y hy => ?_⟩
    rw [getLast?_concat, Option.mem_some_iff] at hx
    rw [head?_singleton, Option.mem_some_iff] at hy
    exact hx ▸ hy ▸ hab

theorem Descends.transGen (hb : b ∈ outer) : Relation.TransGen (d.Embeds aliases) b a := by
  have hchain := h.chain.imp fun _ _ => Relation.TransGen.single
  exact (pairwise_append.mp (isChain_iff_pairwise.mp hchain)).2.2 b hb a mem_cons_self

theorem Descends.length_le : outer.length ≤ d.allAggregates.length :=
  (h.nodup.subperm h.mem).length_le

end

/-- On the way from an aggregate, one that has a layout is taken for another of the same name that
it is inside of, with a given error. -/
def Mistakes (d : Declarations) (aliases : Option AliasTable) (first : AggregateDecl) (e : Error) :
    Prop :=
  ∃ outer a, d.Descends aliases first outer a ∧ (∃ l, d.HasLayout aliases a l) ∧
    (∃ b ∈ outer, b ≠ a ∧ a.name == b.name) ∧
    e = containsItself (outer.map name) a

theorem Descends.mistakes (h : d.Descends aliases first outer a) (hl : d.HasLayout aliases a l)
    (hname : (outer.map name).contains a.name) :
    d.Mistakes aliases first (containsItself (outer.map name) a) := by
  obtain ⟨_, hmem, hbeq⟩ := contains_iff_exists_mem_beq.mp hname
  obtain ⟨b, hb, rfl⟩ := mem_map.mp hmem
  refine ⟨outer, a, h, ⟨l, hl⟩, ⟨b, hb, ?_, hbeq⟩, rfl⟩
  rintro rfl
  exact hl.not_transGen (h.transGen hb)

theorem Distinct.not_mem_of_name (hd : d.Distinct) (ha : a ∈ d.allAggregates)
    (hname : ¬(outer.map name).contains a.name) : a ∉ outer := by
  intro hmem
  have hkey : (a.name.isKey && a.file.isKey && a.line.isKey) :=
    hd.isKey_of_mem (mem_allAggregates.mp ha)
  simp only [Bool.and_eq_true] at hkey
  have hself := Json.beq_self_of_isKey hkey.1.1
  exact hname (contains_iff_exists_mem_beq.mpr ⟨a.name, mem_map_of_mem hmem, hself⟩)

theorem run_layoutInside_of_get? {fuel : Nat} (hfuel : 0 < fuel) (inside : List Json)
    (hl : c.get? a.identity = some l) :
    (d.layoutInside aliases fuel inside a).run.run c = (.ok l, c) := by
  obtain ⟨fuel, rfl⟩ := Nat.exists_eq_add_one.mpr hfuel
  rw [run_layoutInside_succ, hl]

theorem placeMembers_of_held {E : Error → Prop} (hd : d.Distinct) (ha : a ∈ d.allAggregates)
    (hl : c'.get? a.identity = some l)
    (hinner : ∀ b, d.Embeds aliases a b → Tracks (d.Below aliases) E (inner b) (inner b))
    (hread : ∀ b l', d.Embeds aliases a b → c'.get? b.identity = some l' →
      (inner b).run.run c' = (.ok l', c'))
    (hc : d.Below aliases c c') :
    (∃ e, ((d.placeMembers aliases inner a).run.run c).1 = .error e ∧ E e) ∨
      ((d.placeMembers aliases inner a).run.run c).1 = .ok l ∧
        d.Below aliases ((d.placeMembers aliases inner a).run.run c).2 c' := by
  obtain ⟨⟨layouts, hlayouts, hplace⟩, hembeds⟩ := hc.more.of_get? hd ha hl
  -- The second computation only reads, and so does not change what is kept.
  have htracks : Tracks (fun c k => d.Below aliases c k ∧ k = c') E
      (d.placeMembers aliases inner a)
      (d.placeMembers aliases (fun b => pure (layouts b)) a) := by
    refine tracks_placeMembers fun b hb => ?_
    rintro c1 _ ⟨hc1, rfl⟩
    obtain ⟨l', hl'⟩ := holds_iff.mp (hembeds b hb)
    obtain rfl := (hc.more.of_get? hd hb.mem hl').1.unique (hlayouts b hb)
    have hinner := hinner b hb c1 _ hc1
    rw [hread b _ hb hl'] at hinner
    exact hinner.imp_right fun ⟨heq, hbelow⟩ => ⟨heq, hbelow, rfl⟩
  rcases htracks c c' ⟨hc, rfl⟩ with hfail | ⟨heq, hbelow, hsame⟩
  · exact .inl hfail
  · rw [hsame] at hbelow
    exact .inr ⟨heq.trans (hplace c'), hbelow⟩

/-- With fewer layouts kept and with more, a layout inside others is computed alike, unless on the
way an aggregate is taken for another. -/
theorem tracks_layoutInside (hd : d.Distinct) (fuel : Nat)
    (houter : d.Descends aliases first outer a) (ha : a ∈ d.allAggregates)
    (hfuel : d.allAggregates.length < fuel + outer.length) :
    Tracks (d.Below aliases) (d.Mistakes aliases first)
      (d.layoutInside aliases fuel (outer.map name) a)
      (d.layoutInside aliases fuel (outer.map name) a) := by
  -- Every level goes into one more of the aggregates of the unit.
  induction fuel generalizing outer a with
  | zero =>
    have hle := houter.length_le
    omega
  | succ fuel ih =>
    intro c c' hc
    cases hget : c.get? a.identity with
    | some l =>
      rw [run_layoutInside_of_get? (Nat.succ_pos fuel) _ hget,
        run_layoutInside_of_get? (Nat.succ_pos fuel) _ (hc.get? hd ha hget)]
      exact .inr ⟨rfl, hc⟩
    | none =>
      by_cases hname : (outer.map name).contains a.name
      · rw [run_layoutInside_succ, run_layoutInside_succ, hget]
        simp only [hname]
        cases hget' : c'.get? a.identity with
        | some l => exact .inl ⟨_, rfl, houter.mistakes (hc.more.of_get? hd ha hget').1 hname⟩
        | none => exact .inr ⟨rfl, hc⟩
      have hsound {k : LayoutCache} (hk : d.Sound aliases k) : d.Sound aliases
          ((d.layoutInside aliases (fuel + 1) (outer.map name) a).run.run k).2 :=
        (lays_layoutInside hd _ _ ha k hk).1
      have hfewer := hsound hc.fewer
      have hdeeper {b : AggregateDecl} (hb : d.Embeds aliases a b) :
          d.Descends aliases first (outer ++ [a]) b :=
        houter.concat ha (hd.not_mem_of_name ha hname) hb
      have hlength : d.allAggregates.length < fuel + (outer ++ [a]).length := by
        rw [length_append, length_singleton]
        omega
      have hinner (b : AggregateDecl) (hb : d.Embeds aliases a b) :
          Tracks (d.Below aliases) (d.Mistakes aliases first)
            (d.layoutInside aliases fuel (outer.map name ++ [a.name]) b)
            (d.layoutInside aliases fuel (outer.map name ++ [a.name]) b) := by
        have hinner := ih (hdeeper hb) hb.mem hlength
        rwa [map_append] at hinner
      rw [run_layoutInside_of_new hget hname] at hfewer ⊢
      cases hget' : c'.get? a.identity with
      | some l =>
        have hread (b : AggregateDecl) (l' : Layout) (hb : d.Embeds aliases a b)
            (hl' : c'.get? b.identity = some l') :
            (d.layoutInside aliases fuel (outer.map name ++ [a.name]) b).run.run c' =
              (.ok l', c') := by
          have hle := (hdeeper hb).length_le
          exact run_layoutInside_of_get? (by omega) _ hl'
        rw [run_layoutInside_of_get? (Nat.succ_pos fuel) _ hget', fst_keep]
        refine (placeMembers_of_held hd ha hget' hinner hread hc).imp_right ?_
        rintro ⟨heq, hbelow⟩
        exact ⟨heq, hbelow.keep_left hd ha hfewer (holds_iff.mpr ⟨l, hget'⟩)⟩
      | none =>
        have hmore := hsound hc.more
        rw [run_layoutInside_of_new hget' hname] at hmore ⊢
        rw [fst_keep, fst_keep]
        refine (tracks_placeMembers hinner c c' hc).imp_right ?_
        rintro ⟨heq, hbelow⟩
        exact ⟨heq, hbelow.keep heq hd ha hfewer hmore⟩

/-! ## Requests -/

/-- A request for the layout of an aggregate, which may be named by a spelling. -/
inductive LayoutRequest
  | of (a : AggregateDecl)
  | named (spelling : String)

def LayoutRequest.target (d : Declarations) : LayoutRequest → Except Error AggregateDecl
  | of a => .ok a
  | named spelling => d.aggregateNamed spelling

/-- A request for an aggregate of the unit, or for what a spelling names. -/
def LayoutRequest.Concerns (d : Declarations) : LayoutRequest → Prop
  | of a => a ∈ d.allAggregates
  | named _ => True

def answer (d : Declarations) (aliases : Option AliasTable) (r : LayoutRequest) :
    Laying Layout := do
  d.layout aliases (← (r.target d : Except Error AggregateDecl))

def afterRequests (d : Declarations) (aliases : Option AliasTable) (rs : List LayoutRequest) :
    Declarations :=
  rs.foldl (fun d r => (d.runLaying (d.answer aliases r)).2) d

theorem LayoutRequest.Concerns.mem (hr : r.Concerns d)
    (ha : r.target d = .ok a) : a ∈ d.allAggregates := by
  cases r with
  | of b =>
    cases ha
    exact hr
  | named spelling =>
    unfold LayoutRequest.target aggregateNamed at ha
    dsimp only at ha
    split at ha
    · rename_i found
      cases ha
      split at found <;> exact mem_allAggregates.mpr (mem_entities_of_tagged? found)
    · cases ha

theorem LayoutRequest.target_keeping (d : Declarations) (c : LayoutCache) (r : LayoutRequest) :
    r.target (d.keeping c) = r.target d := by
  have htagged : (d.keeping c).tagged? = d.tagged? := rfl
  cases r with
  | of a => rfl
  | named spelling => simp only [target, aggregateNamed, htagged]

theorem answer_keeping (d : Declarations) (c : LayoutCache) : (d.keeping c).answer = d.answer := by
  funext aliases r
  have hbound : (d.keeping c).containmentBound = d.containmentBound := rfl
  simp only [answer, layout, layoutInside_keeping, LayoutRequest.target_keeping, hbound]

theorem preserves_sound_answer (hd : d.Distinct) (hr : r.Concerns d) :
    Preserves (d.Sound aliases) (d.answer aliases r) :=
  preserves_lift_bind fun _ ha c hc => (lays_layoutInside hd _ _ (hr.mem ha) c hc).1

theorem exists_afterRequests (hd : d.Distinct) {rs : List LayoutRequest}
    (hrs : ∀ r ∈ rs, r.Concerns d) (hc : d.Sound aliases c) :
    ∃ c', (d.keeping c).afterRequests aliases rs = d.keeping c' ∧ d.Sound aliases c' := by
  induction rs generalizing c with
  | nil => exact ⟨c, rfl, hc⟩
  | cons r rs ih =>
    rw [forall_mem_cons] at hrs
    have hstep : (d.keeping c).afterRequests aliases (r :: rs) =
        (d.keeping ((d.answer aliases r).run.run c).2).afterRequests aliases rs := by
      rw [← answer_keeping d c]
      rfl
    rw [hstep]
    exact ih hrs.2 (preserves_sound_answer hd hrs.1 c hc)

/-- In a unit of which no layout is kept yet, a request is answered after any others as it would be
at once; unless at once it is refused because on the way from the aggregate one that has a layout is
taken for another of its name. -/
theorem answer_after_requests (hd : d.Reached) (hfresh : d.layouts = .empty)
    {rs : List LayoutRequest} (hrs : ∀ r ∈ rs, r.Concerns d)
    (hr : r.Concerns d) :
    ((d.afterRequests aliases rs).runLaying ((d.afterRequests aliases rs).answer aliases r)).1 =
        (d.runLaying (d.answer aliases r)).1 ∨
      ∃ a e, r.target d = .ok a ∧ (d.runLaying (d.answer aliases r)).1 = .error e ∧
        d.Mistakes aliases a e := by
  have hdistinct := hd.kept.toDistinct
  obtain ⟨c, hafter, hc⟩ := exists_afterRequests (c := .empty) hdistinct hrs sound_empty
  have hempty : d.keeping .empty = d := by rw [keeping, ← hfresh]
  rw [hempty] at hafter
  rw [hafter, answer_keeping]
  have hbelow : d.Below aliases d.layouts c := by
    rw [hfresh]
    refine ⟨sound_empty, hc, fun a _ hholds => absurd (fun _ hx => ?_) hholds⟩
    exact absurd hx List.not_mem_nil
  have htracks : Tracks (d.Below aliases)
      (fun e => ∃ a, r.target d = .ok a ∧ d.Mistakes aliases a e)
      (d.answer aliases r) (d.answer aliases r) := by
    refine tracks_lift_bind fun a ha c c' hc => ?_
    have houter : d.Descends aliases a [] a := ⟨nofun, List.nodup_nil, rfl, .singleton a⟩
    refine (tracks_layoutInside hdistinct _ houter (hr.mem ha) (Nat.lt_succ_self _) c c'
      hc).imp_left ?_
    rintro ⟨e, he, hmistakes⟩
    exact ⟨e, he, a, ha, hmistakes⟩
  rcases htracks d.layouts c hbelow with ⟨e, he, a, ha, hmistakes⟩ | ⟨heq, -⟩
  · exact .inr ⟨a, e, ha, he, hmistakes⟩
  · exact .inl heq.symm

/-! ### A struct and a union of one name -/

def plainMember (name type : String) : MemberDecl :=
  ⟨.str name, .str type, .null, .null, .null, .null, .null⟩

def unionA : AggregateDecl :=
  { isUnion := true, name := .str "A", file := .str "a.h", line := .int 1, isPacked := .null
    members := [plainMember "word" "int"] }

def structA : AggregateDecl :=
  { isUnion := false, name := .str "A", file := .str "a.h", line := .int 2, isPacked := .null
    members := [plainMember "inner" "union A"] }

def structB : AggregateDecl :=
  { isUnion := false, name := .str "B", file := .str "a.h", line := .int 3, isPacked := .null
    members := [plainMember "first" "union A", plainMember "second" "struct A"] }

def shared : Declarations :=
  (empty .lp64).addAll [.aggregate unionA, .aggregate structA, .aggregate structB]

theorem reached_shared : shared.Reached := (Reached.empty .lp64).addAll _

theorem mem_shared : unionA ∈ shared.allAggregates ∧ structA ∈ shared.allAggregates :=
  ⟨List.mem_cons_self, mem_cons_of_mem _ mem_cons_self⟩

/-- A request that is refused and others do not change the answer to another. -/
theorem answer_after_requests_shared :
    ((shared.afterRequests none [.named "struct A", .of unionA, .of structA]).runLaying
        ((shared.afterRequests none [.named "struct A", .of unionA, .of structA]).answer none
          (.named "B"))).1 = (shared.runLaying (shared.answer none (.named "B"))).1 ∧
      (shared.runLaying (shared.answer none (.named "B"))).1.toOption.map Layout.size
        = some (.int 8) := by
  have hsize : (shared.runLaying (shared.answer none (.named "B"))).1.toOption.map Layout.size
      = some (.int 8) := by decide +kernel
  have hrs : ∀ r ∈ [LayoutRequest.named "struct A", .of unionA, .of structA],
      r.Concerns shared := by
    rw [List.forall_mem_cons, List.forall_mem_cons, List.forall_mem_singleton]
    exact ⟨trivial, mem_shared⟩
  have hconcerns : (LayoutRequest.named "B").Concerns shared := trivial
  rcases @answer_after_requests shared none _ reached_shared rfl _ hrs hconcerns with
    h | ⟨a, e, -, he, -⟩
  · exact ⟨h, hsize⟩
  · rw [he] at hsize
    cases hsize

/-- The names on the way to an aggregate that is refused as one that contains itself. -/
def containedIn? : Except Error Layout → Option (List String)
  | .error (.model (.selfContaining names)) => some names
  | _ => none

theorem eq_of_containedIn? {x : Except Error Layout} {names : List String}
    (h : containedIn? x = some names) : x = .error (.model (.selfContaining names)) := by
  unfold containedIn? at h
  split at h
  · rw [Option.some.inj h]
  · cases h

/-- At once the struct is refused; after the union has been asked for, it has a layout. -/
theorem answer_depends_on_requests :
    shared.Reached ∧ shared.layouts = .empty ∧ unionA ∈ shared.allAggregates ∧
      structA ∈ shared.allAggregates ∧
      (shared.runLaying (shared.answer none (.of structA))).1 =
        .error (.model (.selfContaining ["A", "A"])) ∧
      ((shared.afterRequests none [.of unionA]).runLaying
        ((shared.afterRequests none [.of unionA]).answer none (.of structA))).1.toOption.map
          Layout.size = some (.int 4) := by
  have hchain : containedIn? (shared.runLaying (shared.answer none (.of structA))).1
      = some ["A", "A"] := by decide +kernel
  exact ⟨reached_shared, rfl, mem_shared.1, mem_shared.2, eq_of_containedIn? hchain,
    by decide +kernel⟩

end Declarations

end Branchwise
