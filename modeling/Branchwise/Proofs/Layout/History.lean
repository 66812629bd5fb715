import Branchwise.Proofs.Data.Table
import Branchwise.Proofs.Layout.Laying

/-!
# Layouts over the life of a unit

The layout of an aggregate is computed once and kept, while entities are added and other layouts are
asked for.  A layout that is given is one that was computed at some time, from the shapes that the
members had then.
-/

namespace Branchwise.Declarations

open Laying Layout List

inductive Reached : Declarations → Prop
  | empty (t : Target) : Reached (.empty t)
  | add {d d' : Declarations} {e stored : Entity} {isNew : Bool} (hd : Reached d)
      (h : d.insert e = .ok (isNew, stored, d')) : Reached d'
  | mark {d : Declarations} (g : CallGraph) (hd : Reached d) : Reached (g.recordRecursion d)
  /-- The layout of an aggregate is asked for, alone or inside others. -/
  | lay {d : Declarations} {a : AggregateDecl} (aliases : Option AliasTable) (fuel : Nat)
      (inside : List Json) (hd : Reached d) (ha : a ∈ d.allAggregates) :
      Reached (d.runLaying (d.layoutInside aliases fuel inside a)).2

/-- Declarations that a unit has had before: since then entities were added and functions marked,
whatever layouts were kept. -/
inductive Precedes (d₀ : Declarations) : Declarations → Prop
  | refl : Precedes d₀ d₀
  | add {d d' : Declarations} {e stored : Entity} {isNew : Bool} (hd : Precedes d₀ d)
      (h : d.insert e = .ok (isNew, stored, d')) : Precedes d₀ d'
  | mark {d : Declarations} (g : CallGraph) (hd : Precedes d₀ d) :
      Precedes d₀ (g.recordRecursion d)
  | keep {d : Declarations} (c : LayoutCache) (hd : Precedes d₀ d) : Precedes d₀ (d.keeping c)

def Measured (d : Declarations) (a : AggregateDecl) (ss : List MemberShape) : Prop :=
  ∃ d₀ aliases fuel inside, Reached d₀ ∧ Precedes d₀ d ∧ a ∈ d₀.allAggregates ∧
    (d₀.runLaying (d₀.measure aliases (d₀.layoutInside aliases fuel inside) a)).1 = .ok ss

structure Laid (d : Declarations) (a : AggregateDecl) (ss : List MemberShape) (l : Layout) :
    Prop where
  measured : d.Measured a ss
  length_eq : ss.length = a.members.length
  ofShapes_eq : ofShapes a.isUnion (a.members.zip ss) = .ok l

/-- Every layout that is kept is one of an aggregate, and was computed for it. -/
structure Kept (d : Declarations) : Prop extends Distinct d where
  laid : ∀ x ∈ d.layouts.entries, ∃ a ∈ d.allAggregates, x.1 = a.identity ∧ ∃ ss, d.Laid a ss x.2

variable {d d' : Declarations} {aliases : Option AliasTable} {fuel : Nat} {inside : List Json}
  {a : AggregateDecl} {c : LayoutCache} {l : Layout} {ss : List MemberShape}

theorem Laid.imp (h : d.Laid a ss l) (hd : ∀ d0, Precedes d0 d → Precedes d0 d') :
    d'.Laid a ss l := by
  obtain ⟨⟨d0, aliases, fuel, inside, hreached, hbefore, ha, hss⟩, hlength, hl⟩ := h
  exact ⟨⟨d0, aliases, fuel, inside, hreached, hd d0 hbefore, ha, hss⟩, hlength, hl⟩

theorem Kept.exists_laid (h : d.Kept) (ha : a ∈ d.allAggregates)
    (hl : d.layouts.get? a.identity = some l) : ∃ ss, d.Laid a ss l := by
  obtain ⟨k, hbeq, hmem⟩ := Table.exists_mem_of_get? hl
  obtain ⟨b, hb, rfl, hlaid⟩ := h.laid _ hmem
  obtain rfl := h.eq_of_beq hb ha hbeq
  exact hlaid

theorem Kept.put (h : d.Kept) (ha : a ∈ d.allAggregates) (hl : d.Laid a ss l) :
    (d.keeping (d.layouts.put a.identity l)).Kept := by
  have hkeep : ∀ {b ss l'}, d.Laid b ss l' →
      (d.keeping (d.layouts.put a.identity l)).Laid b ss l' := fun hb => hb.imp fun _ => .keep _
  refine { h.toDistinct with isKey := h.isKey, apart := h.apart, laid := fun x hx => ?_ }
  -- An entry whose key counts as that of the aggregate has been given its layout.
  rcases Table.mem_entries_put hx with hx | rfl | ⟨w, hbeq, hx, hl'⟩
  · obtain ⟨b, hb, hk, ss', hlaid⟩ := h.laid x hx
    exact ⟨b, hb, hk, ss', hkeep hlaid⟩
  · exact ⟨a, ha, rfl, ss, hkeep hl⟩
  · obtain ⟨b, hb, hk, -⟩ := h.laid _ hx
    obtain rfl := h.eq_of_beq hb ha (hk ▸ hbeq)
    exact ⟨b, hb, hk, ss, hl' ▸ hkeep hl⟩

/-! ## Asking for a layout -/

theorem run_layoutInside_succ (d : Declarations) (aliases : Option AliasTable) (fuel : Nat)
    (inside : List Json) (a : AggregateDecl) (c : LayoutCache) :
    (d.layoutInside aliases (fuel + 1) inside a).run.run c = match c.get? a.identity with
      | some l => (.ok l, c)
      | none =>
        if inside.contains a.name then (.error (containsItself inside a), c)
        else
          match (d.placeMembers aliases
              (d.layoutInside aliases fuel (inside ++ [a.name])) a).run.run c with
            | (.ok l, c') => (.ok l, c'.put a.identity l)
            | (.error e, c') => (.error e, c') := by
  have hget : (get : Laying LayoutCache).run.run c = (.ok c, c) := rfl
  rw [layoutInside, run_bind, hget]
  dsimp only
  cases c.get? a.identity with
  | some l => rfl
  | none =>
    dsimp only
    split
    · rfl
    · rw [run_bind]
      rcases (d.placeMembers aliases (d.layoutInside aliases fuel (inside ++ [a.name])) a).run.run c
        with ⟨_ | l, c'⟩ <;> rfl

theorem Reached.lay_keeping (hd : (d.keeping c).Reached) (ha : a ∈ d.allAggregates) :
    (d.keeping ((d.layoutInside aliases fuel inside a).run.run c).2).Reached := by
  have h := hd.lay aliases fuel inside ha
  rwa [layoutInside_keeping] at h

theorem exists_laid_of_placeMembers {c' : LayoutCache} (hd : (d.keeping c).Reached)
    (ha : a ∈ d.allAggregates)
    (h : (d.placeMembers aliases (d.layoutInside aliases fuel inside) a).run.run c = (.ok l, c')) :
    ∃ ss, (d.measure aliases (d.layoutInside aliases fuel inside) a).run.run c = (.ok ss, c') ∧
      (d.keeping c').Laid a ss l := by
  obtain ⟨ss, hss, hlength, hl⟩ := exists_measure h
  have hbefore : Precedes (d.keeping c) ((d.keeping c).keeping c') := .keep c' .refl
  refine ⟨ss, hss, ⟨d.keeping c, aliases, fuel, inside, hd, hbefore, ha, ?_⟩, hlength, hl⟩
  rw [layoutInside_keeping, measure, memberShape_keeping]
  exact congrArg Prod.fst hss

theorem preserves_kept (fuel : Nat) (inside : List Json) (ha : a ∈ d.allAggregates) :
    Preserves (fun c => (d.keeping c).Reached ∧ (d.keeping c).Kept)
      (d.layoutInside aliases fuel inside a) := by
  induction fuel generalizing inside a with
  | zero => exact preserves_throw _
  | succ fuel ih =>
    rintro c ⟨hd, hkept⟩
    have hplaced : Preserves _
        (d.placeMembers aliases (d.layoutInside aliases fuel (inside ++ [a.name])) a) :=
      preserves_placeMembers fun b hb => ih (inside ++ [a.name]) hb
    have hplace := hplaced c ⟨hd, hkept⟩
    refine ⟨hd.lay_keeping ha, ?_⟩
    rw [run_layoutInside_succ]
    split
    · exact hkept
    split
    · exact hkept
    rcases hrun : (d.placeMembers aliases
      (d.layoutInside aliases fuel (inside ++ [a.name])) a).run.run c with ⟨e | l, c'⟩
    · rw [hrun] at hplace
      exact hplace.2
    · rw [hrun] at hplace
      obtain ⟨ss, -, hlaid⟩ := exists_laid_of_placeMembers hd ha hrun
      exact hplace.2.put ha hlaid

/-! ## What is kept in every unit -/

theorem layouts_add (d : Declarations) (e : Entity) : (d.add e).2.2.layouts = d.layouts := by
  unfold add
  dsimp only
  split <;> rfl

theorem layouts_recordRecursion (g : CallGraph) (d : Declarations) :
    (g.recordRecursion d).layouts = d.layouts := by
  unfold CallGraph.recordRecursion
  induction g.nodes.values generalizing d with
  | nil => rfl
  | cons n ns ih => exact ih _

theorem Kept.imp (h : d.Kept) (hd : d'.Distinct) (hsub : d.allAggregates ⊆ d'.allAggregates)
    (hlayouts : d'.layouts = d.layouts) (hbefore : ∀ d0, Precedes d0 d → Precedes d0 d') :
    d'.Kept := by
  refine { hd with laid := fun x hx => ?_ }
  obtain ⟨a, ha, hk, ss, hlaid⟩ := h.laid x (hlayouts ▸ hx)
  exact ⟨a, hsub ha, hk, ss, hlaid.imp hbefore⟩

theorem Reached.kept (h : d.Reached) : d.Kept := by
  induction h with
  | empty t => exact ⟨distinct_empty t, fun x hx => (not_mem_nil hx).elim⟩
  | add hd h ih =>
    obtain ⟨he, rfl⟩ := exists_add_of_insert h
    exact ih.imp (ih.toDistinct.add he) (ih.toDistinct.allAggregates_add he) (layouts_add _ _)
      fun _ hbefore => .add hbefore h
  | mark g hd ih =>
    obtain ⟨hids, hall⟩ := recordRecursion_spec g _
    obtain ⟨htables, hindex⟩ := stores_recordRecursion g _
    exact ih.imp (ih.toDistinct.congr hids htables hindex) (hall ▸ List.Subset.refl _)
      (layouts_recordRecursion g _) fun _ => .mark g
  | lay aliases fuel inside hd ha ih => exact (preserves_kept fuel inside ha _ ⟨hd, ih⟩).2

theorem Reached.addAll (h : d.Reached) (es : List Entity) : (d.addAll es).Reached := by
  induction es generalizing d with
  | nil => exact h
  | cons e es ih =>
    refine ih ?_
    show ((d.insert e).toOption.map _ |>.getD d).Reached
    cases hinsert : d.insert e with
    | error => exact h
    | ok r => exact h.add hinsert

theorem Reached.layoutIssues (h : d.Reached) (aliases : Option AliasTable) :
    (d.runLaying (d.layoutIssues aliases)).2.Reached :=
  preserves_layoutIssues (P := fun c => (d.keeping c).Reached)
    (fun _ _ _ hb _ hc => hc.lay_keeping hb) d.layouts h

/-! ## Layouts are sound -/

/-- A layout that is given follows from shapes that were once measured for the members, at the first
request from those measured then; and where the shapes are sane, the layout is sound. -/
theorem layout_is_sound (hd : d.Reached) (ha : a ∈ d.allAggregates)
    (hl : (d.runLaying (d.layout aliases a)).1 = .ok l) :
    ∃ ss, d.Laid a ss l ∧
      (d.layouts.get? a.identity = none →
        (d.runLaying (d.measure aliases
          (d.layoutInside aliases d.allAggregates.length [a.name]) a)).1 = .ok ss) ∧
      ∀ es, List.Forall₂ (fun (e : Extent) x => e.Measures x.1 x.2) es (a.members.zip ss) →
        (∀ e ∈ es, e.IsSane) →
          ∃ g : Plan, g.Reads l ∧ if a.isUnion then g.IsUnion es else g.IsStruct es := by
  have hsound : ∀ {ss}, d.Laid a ss l → ∀ es,
      List.Forall₂ (fun (e : Extent) x => e.Measures x.1 x.2) es (a.members.zip ss) →
        (∀ e ∈ es, e.IsSane) →
          ∃ g : Plan, g.Reads l ∧ if a.isUnion then g.IsUnion es else g.IsStruct es := by
    intro ss hlaid es hes hsane
    obtain ⟨l', g, hl', hread, hg⟩ := exists_sound_ofShapes a.isUnion hes hsane
    obtain rfl : l' = l := Except.ok.inj (hl'.symm.trans hlaid.ofShapes_eq)
    exact ⟨g, hread, hg⟩
  have hrun : ((d.layoutInside aliases (d.allAggregates.length + 1) [] a).run.run d.layouts).1
      = .ok l := hl
  rw [run_layoutInside_succ] at hrun
  cases hkept : d.layouts.get? a.identity with
  | some l' =>
    -- The layout is an earlier one, so its shapes were measured in an earlier state.
    rw [hkept] at hrun
    obtain rfl : l' = l := Except.ok.inj hrun
    obtain ⟨ss, hlaid⟩ := hd.kept.exists_laid ha hkept
    exact ⟨ss, hlaid, nofun, hsound hlaid⟩
  | none =>
    rw [hkept] at hrun
    simp only [contains_nil, Bool.false_eq_true, if_false, nil_append] at hrun
    rcases hplace : (d.placeMembers aliases
      (d.layoutInside aliases d.allAggregates.length [a.name]) a).run.run d.layouts
      with ⟨e | l', c⟩
    · rw [hplace] at hrun
      cases hrun
    · rw [hplace] at hrun
      obtain rfl : l' = l := Except.ok.inj hrun
      obtain ⟨ss, hss, hlaid⟩ := exists_laid_of_placeMembers hd ha hplace
      have hlaid' : d.Laid a ss l' := hlaid.imp fun _ => .keep d.layouts
      exact ⟨ss, hlaid', fun _ => congrArg Prod.fst hss, hsound hlaid'⟩

/-! ### A packet with headers and bit-fields -/

def header : AggregateDecl :=
  { isUnion := false, name := .str "header", file := .str "net.h", line := .int 1, isPacked := .null
    members := [⟨.str "kind", .str "char", .null, .null, .null, .null, .null⟩,
      ⟨.str "length", .str "int", .null, .null, .null, .null, .null⟩] }

def packet : AggregateDecl :=
  { isUnion := false, name := .str "packet", file := .str "net.h", line := .int 5, isPacked := .null
    members := [⟨.str "heads", .str "struct header", .int 2, .null, .null, .null, .null⟩,
      ⟨.str "flags", .str "unsigned int", .null, .int 3, .null, .null, .null⟩,
      ⟨.str "mode", .str "unsigned int", .null, .int 5, .null, .null, .null⟩,
      ⟨.str "", .str "unsigned int", .null, .int 0, .null, .null, .null⟩,
      ⟨.str "tail", .str "char", .null, .null, .null, .null, .null⟩] }

def net : Declarations := (empty .lp64).addAll [.aggregate header, .aggregate packet]

def packetExtents : List Extent :=
  [⟨.str "heads", 8, 4, 2, none⟩, ⟨.str "flags", 4, 4, 1, some 3⟩, ⟨.str "mode", 4, 4, 1, some 5⟩,
    ⟨.str "", 4, 4, 1, some 0⟩, ⟨.str "tail", 1, 1, 1, none⟩]

theorem reached_net : net.Reached := (Reached.empty .lp64).addAll _

theorem isSane_packetExtents : ∀ e ∈ packetExtents, e.IsSane := by
  simp only [packetExtents, forall_mem_cons]
  refine ⟨⟨?_, ?_, ?_, ?_⟩, ⟨?_, ?_, ?_, ?_⟩, ⟨?_, ?_, ?_, ?_⟩, ⟨?_, ?_, ?_, ?_⟩, ⟨?_, ?_, ?_, ?_⟩,
    nofun⟩ <;> simp

theorem layout_is_sound_packet :
    ∃ (l : Layout) (g : Plan), (net.runLaying (net.layout none packet)).1 = .ok l ∧
      l.padding = .int 3 ∧ g.Reads l ∧ g.IsStruct packetExtents := by
  have hmem : packet ∈ net.allAggregates := mem_cons_of_mem _ mem_cons_self
  have hpadding : (net.runLaying (net.layout none packet)).1.toOption.map padding
      = some (.int 3) := by decide +kernel
  have hshapes : (net.runLaying (net.measure none
      (net.layoutInside none net.allAggregates.length [packet.name]) packet)).1.toOption.map
        (·.map fun s => (s.size.whole?, s.alignment.whole?, s.count.whole?))
      = some (packetExtents.map fun e => (some e.size, some e.alignment, some e.count)) := by
    decide +kernel
  cases hl : (net.runLaying (net.layout none packet)).1 with
  | error e =>
    rw [hl] at hpadding
    cases hpadding
  | ok l =>
    rw [hl] at hpadding
    obtain ⟨ss, -, hss, hsound⟩ := layout_is_sound reached_net hmem hl
    rw [hss rfl] at hshapes
    obtain ⟨s1, _, rfl, h1, hrest⟩ := map_eq_cons_iff.mp (Option.some.inj hshapes)
    obtain ⟨s2, _, rfl, h2, hrest⟩ := map_eq_cons_iff.mp hrest
    obtain ⟨s3, _, rfl, h3, hrest⟩ := map_eq_cons_iff.mp hrest
    obtain ⟨s4, _, rfl, h4, hrest⟩ := map_eq_cons_iff.mp hrest
    obtain ⟨s5, _, rfl, h5, hrest⟩ := map_eq_cons_iff.mp hrest
    obtain rfl := map_eq_nil_iff.mp hrest
    simp only [Prod.mk.injEq] at h1 h2 h3 h4 h5
    obtain ⟨g, hread, hg⟩ := hsound packetExtents
      (.cons ⟨rfl, h1.1, h1.2.1, h1.2.2, rfl⟩ (.cons ⟨rfl, h2.1, h2.2.1, h2.2.2, rfl⟩
        (.cons ⟨rfl, h3.1, h3.2.1, h3.2.2, rfl⟩ (.cons ⟨rfl, h4.1, h4.2.1, h4.2.2, rfl⟩
          (.cons ⟨rfl, h5.1, h5.2.1, h5.2.2, rfl⟩ .nil))))) isSane_packetExtents
    exact ⟨l, g, rfl, Option.some.inj hpadding, hread, hg⟩

end Branchwise.Declarations
