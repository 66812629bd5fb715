import Branchwise.Declarations.Issue
import Branchwise.Proofs.Declarations.Identity
import Branchwise.Proofs.Layout.Geometry

/-!
# Computing layouts and keeping them

A computation of layouts may fail, and keeps what it has computed all the same.  Placing the members
of an aggregate asks for their shapes, one after another, and for nothing but the layouts of
aggregates of the unit; the layout follows from the shapes.
-/

namespace Branchwise

open List Layout

/-! ## Computations that keep layouts -/

namespace Laying

variable {α β : Type} {I J : LayoutCache → Prop} {Q : α → Prop} {R : β → Prop} {P P' : Error → Prop}
  {x : Laying α} {xs : List β} {c c' : LayoutCache}

theorem run_bind_eq_ok {x : Laying α} {f : α → Laying β} {b : β}
    (h : (x >>= f).run.run c = (.ok b, c')) :
    ∃ a c1, x.run.run c = (.ok a, c1) ∧ (f a).run.run c1 = (.ok b, c') := by
  rw [run_bind] at h
  rcases hx : x.run.run c with ⟨_ | a, c1⟩
  · rw [hx] at h; cases h
  · rw [hx] at h; exact ⟨a, c1, rfl, h⟩

theorem run_lift (x : Except Error α) (c : LayoutCache) :
    (liftM x : Laying α).run.run c = (x, c) := rfl

theorem run_lift_bind_eq_ok {x : Except Error α} {f : α → Laying β} {b : β}
    (h : (liftM x >>= f : Laying β).run.run c = (.ok b, c')) :
    ∃ a, x = .ok a ∧ (f a).run.run c = (.ok b, c') := by
  obtain ⟨a, c1, hlift, h⟩ := run_bind_eq_ok h
  obtain ⟨hx, rfl⟩ := Prod.mk.inj hlift
  exact ⟨a, hx, h⟩

/-! ### How a computation ends and what it keeps -/

/-- Where something holds of the kept layouts, it holds of them after a computation, which ends with
a result of which one thing holds, or with an error of which another does. -/
def Settles (I : LayoutCache → Prop) (Q : α → Prop) (P : Error → Prop) (x : Laying α) : Prop :=
  ∀ c, I c → I (x.run.run c).2 ∧ Ends Q P (x.run.run c).1

theorem settles_pure {a : α} (h : Q a) : Settles I Q P (pure a : Laying α) :=
  fun _ hc => ⟨hc, .ok h⟩

theorem settles_throw {e : Error} (h : P e) : Settles I Q P (throw e : Laying α) :=
  fun _ hc => ⟨hc, .error h⟩

theorem settles_lift {x : Except Error α} (h : Ends Q P x) : Settles I Q P (liftM x : Laying α) :=
  fun _ hc => ⟨hc, h⟩

theorem Settles.imp {Q' : α → Prop} (hx : Settles I Q P x) (hQ : ∀ a, Q a → Q' a)
    (hP : ∀ e, P e → P' e) : Settles I Q' P' x :=
  fun c hc => ⟨(hx c hc).1, (hx c hc).2.imp hQ hP⟩

theorem Settles.with_run (hx : Settles I Q P x) :
    Settles I (fun a => Q a ∧ ∃ c, (x.run.run c).1 = .ok a) P x := fun c hc =>
  ⟨(hx c hc).1, fun a ha => ⟨(hx c hc).2.of_eq_ok a ha, c, ha⟩, (hx c hc).2.of_eq_error⟩

theorem Settles.bind {f : α → Laying β} (hx : Settles I Q P x)
    (hf : ∀ a, Q a → Settles I R P (f a)) : Settles I R P (x >>= f) := by
  intro c hc
  rw [run_bind]
  obtain ⟨hkept, hends⟩ := hx c hc
  rcases hr : x.run.run c with ⟨e | a, c'⟩
  · rw [hr] at hkept hends
    exact ⟨hkept, .error (hends.of_eq_error e rfl)⟩
  · rw [hr] at hkept hends
    exact hf a (hends.of_eq_ok a rfl) c' hkept

theorem Settles.catch {f : Error → Laying α} (hx : Settles I Q P x)
    (hf : ∀ e, P e → Settles I Q P' (f e)) : Settles I Q P' (tryCatch x f : Laying α) := by
  intro c hc
  obtain ⟨hkept, hends⟩ := hx c hc
  rw [ExceptT.run_tryCatch, StateT.run_bind]
  rcases hr : x.run.run c with ⟨e | a, c'⟩
  · rw [hr] at hkept hends
    exact hf e (hends.of_eq_error e rfl) c' hkept
  · rw [hr] at hkept hends
    exact ⟨hkept, .ok (hends.of_eq_ok a rfl)⟩

theorem settles_mapM {f : β → Laying α} (hf : ∀ x ∈ xs, Settles I Q P (f x)) :
    Settles I (fun ys => ∀ y ∈ ys, Q y) P (xs.mapM f) := by
  induction xs with
  | nil => exact settles_pure nofun
  | cons x xs ih =>
    rw [forall_mem_cons] at hf
    rw [mapM_cons]
    refine hf.1.bind fun y hy => (ih hf.2).bind fun ys hys => settles_pure ?_
    exact forall_mem_cons.mpr ⟨hy, hys⟩

theorem settles_foldlM {f : α → β → Laying α} {a : α}
    (hf : ∀ a, Q a → ∀ x ∈ xs, Settles I Q P (f a x)) (ha : Q a) :
    Settles I Q P (xs.foldlM f a) := by
  induction xs generalizing a with
  | nil => exact settles_pure ha
  | cons x xs ih =>
    refine (hf a ha x mem_cons_self).bind fun a' ha' => ih (fun b hb y hy => ?_) ha'
    exact hf b hb y (mem_cons_of_mem _ hy)

theorem settles_foldlM_of_stop {f : α → β → Laying α} {before after : List β} {x : β} {a : α}
    (hbefore : ∀ a, Q a → ∀ y ∈ before, Settles I Q P (f a y))
    (hx : ∀ a, Q a → Settles I (fun _ => False) P (f a x)) (ha : Q a) :
    Settles I (fun _ => False) P ((before ++ x :: after).foldlM f a) := by
  rw [foldlM_append]
  refine (settles_foldlM hbefore ha).bind fun b hb => ?_
  exact (hx b hb).bind fun _ h => h.elim

/-- Whatever a computation gives, what held of the kept layouts holds of them afterwards. -/
def Preserves (I : LayoutCache → Prop) (x : Laying α) : Prop := ∀ c, I c → I (x.run.run c).2

theorem Preserves.settles (hx : Preserves I x) : Settles I (fun _ => True) (fun _ => True) x :=
  fun c hc => ⟨hx c hc, .any _⟩

theorem Settles.preserves (hx : Settles I Q P x) : Preserves I x := fun c hc => (hx c hc).1

theorem preserves_pure (a : α) : Preserves I (pure a : Laying α) := fun _ h => h

theorem preserves_throw (e : Error) : Preserves I (throw e : Laying α) := fun _ h => h

theorem Preserves.bind {f : α → Laying β} (hx : Preserves I x) (hf : ∀ a, Preserves I (f a)) :
    Preserves I (x >>= f) :=
  (hx.settles.bind fun a _ => (hf a).settles).preserves

theorem preserves_lift_bind {x : Except Error α} {f : α → Laying β}
    (hf : ∀ a, x = .ok a → Preserves I (f a)) : Preserves I (liftM x >>= f : Laying β) :=
  ((settles_lift (Ends.any x).with_eq).bind fun a ha => (hf a ha).settles).preserves

theorem Preserves.catch {f : Error → Laying α} (hx : Preserves I x)
    (hf : ∀ e, Preserves I (f e)) : Preserves I (tryCatch x f : Laying α) :=
  (hx.settles.catch fun e _ => (hf e).settles).preserves

theorem preserves_mapM {f : β → Laying α} (hf : ∀ x ∈ xs, Preserves I (f x)) :
    Preserves I (xs.mapM f) :=
  (settles_mapM fun x hx => (hf x hx).settles).preserves

theorem exists_run_of_mem {f : β → Laying α} {ys : List α} (hI : ∀ x ∈ xs, Preserves I (f x))
    (hJ : ∀ x ∈ xs, Preserves J (f x)) (h : (xs.mapM f).run.run c = (.ok ys, c'))
    (hc : I c) {x : β} (hx : x ∈ xs) :
    ∃ y c1 c2, (f x).run.run c1 = (.ok y, c2) ∧ I c1 ∧ (J c2 → J c') := by
  induction xs generalizing c ys with
  | nil => exact absurd hx not_mem_nil
  | cons x0 xs ih =>
    rw [forall_mem_cons] at hI hJ
    rw [mapM_cons] at h
    obtain ⟨y, c1, hfirst, h⟩ := run_bind_eq_ok h
    obtain ⟨ys', c2, hrest, h⟩ := run_bind_eq_ok h
    obtain ⟨-, rfl⟩ := Prod.mk.inj h
    rcases mem_cons.mp hx with rfl | hx
    · have hlater := preserves_mapM hJ.2 c1
      rw [hrest] at hlater
      exact ⟨y, c, c1, hfirst, hc, hlater⟩
    · have hc1 := hI.1 c hc
      rw [hfirst] at hc1
      exact ih hI.2 hJ.2 hrest hc1 hx

theorem run_foldlM_eq_ok {γ : Type} {ask : α → Laying γ} {step : β → α → γ → Except Error β}
    {xs : List α} {b b' : β}
    (h : (xs.foldlM (fun b x => do liftM (step b x (← ask x))) b : Laying β).run.run c
      = (.ok b', c')) :
    ∃ ys, (xs.mapM ask).run.run c = (.ok ys, c') ∧ ys.length = xs.length ∧
      (xs.zip ys).foldlM (fun b x => step b x.1 x.2) b = .ok b' := by
  induction xs generalizing b c with
  | nil =>
    obtain ⟨⟩ := h
    exact ⟨[], rfl, rfl, rfl⟩
  | cons x xs ih =>
    obtain ⟨b1, c1, hstep, hrest⟩ := run_bind_eq_ok h
    obtain ⟨y, c2, hask, hlift⟩ := run_bind_eq_ok hstep
    rw [run_lift] at hlift
    obtain ⟨hb, rfl⟩ := Prod.mk.inj hlift
    obtain ⟨ys, hys, hlength, hfold⟩ := ih hrest
    refine ⟨y :: ys, ?_, congrArg Nat.succ hlength, ?_⟩
    · rw [mapM_cons, run_bind, hask]
      show (do pure (y :: (← xs.mapM ask)) : Laying (List γ)).run.run c2 = _
      rw [run_bind, hys]
      rfl
    · rw [zip_cons_cons, foldlM_cons, hb, ok_bind, hfold]

/-! ### Two computations side by side -/

section Tracks

variable {P : LayoutCache → LayoutCache → Prop} {E : Error → Prop}

/-- Where what is kept is related, two computations end alike and what is kept stays related, unless
the first ends with an error of some kind. -/
def Tracks (P : LayoutCache → LayoutCache → Prop) (E : Error → Prop) (x y : Laying α) : Prop :=
  ∀ c c', P c c' → (∃ e, (x.run.run c).1 = .error e ∧ E e) ∨
    (x.run.run c).1 = (y.run.run c').1 ∧ P (x.run.run c).2 (y.run.run c').2

theorem tracks_pure (a : α) : Tracks P E (pure a : Laying α) (pure a) := fun _ _ h => .inr ⟨rfl, h⟩

theorem tracks_throw (e : Error) : Tracks P E (throw e : Laying α) (throw e) :=
  fun _ _ h => .inr ⟨rfl, h⟩

theorem tracks_lift (x : Except Error α) : Tracks P E (liftM x : Laying α) (liftM x) :=
  fun _ _ h => .inr ⟨rfl, h⟩

theorem Tracks.bind {x y : Laying α} {f g : α → Laying β} (hx : Tracks P E x y)
    (hf : ∀ a, Tracks P E (f a) (g a)) : Tracks P E (x >>= f) (y >>= g) := by
  intro c c' hc
  rw [run_bind, run_bind]
  have hx := hx c c' hc
  rcases hxr : x.run.run c with ⟨e | a, c1⟩
  · rw [hxr] at hx
    rcases hx with ⟨e', he, hE⟩ | ⟨heq, hP⟩
    · cases he
      exact .inl ⟨e, rfl, hE⟩
    · rcases hyr : y.run.run c' with ⟨_ | _, c1'⟩ <;> rw [hyr] at heq hP <;> cases heq
      exact .inr ⟨rfl, hP⟩
  · rw [hxr] at hx
    rcases hx with ⟨e', he, -⟩ | ⟨heq, hP⟩
    · cases he
    · rcases hyr : y.run.run c' with ⟨_ | _, c1'⟩ <;> rw [hyr] at heq hP <;> cases heq
      exact hf a c1 c1' hP

theorem tracks_lift_bind {x : Except Error α} {f g : α → Laying β}
    (hf : ∀ a, x = .ok a → Tracks P E (f a) (g a)) :
    Tracks P E (liftM x >>= f : Laying β) (liftM x >>= g) := by
  intro c c' hc
  cases x with
  | error e => exact .inr ⟨rfl, hc⟩
  | ok a => exact hf a rfl c c' hc

theorem tracks_foldlM {f g : β → α → Laying β} {xs : List α}
    (hf : ∀ b, ∀ x ∈ xs, Tracks P E (f b x) (g b x)) (b : β) :
    Tracks P E (xs.foldlM f b) (xs.foldlM g b) := by
  induction xs generalizing b with
  | nil => exact tracks_pure b
  | cons x xs ih =>
    exact (hf b x mem_cons_self).bind fun b' =>
      ih (fun b y hy => hf b y (mem_cons_of_mem _ hy)) b'

theorem preserves_iff_tracks :
    Preserves I x ↔ Tracks (fun c c' => c = c' ∧ I c) (fun _ => False) x x := by
  constructor
  · rintro hx c _ ⟨rfl, hc⟩
    exact .inr ⟨rfl, rfl, hx c hc⟩
  · intro hx c hc
    rcases hx c c ⟨rfl, hc⟩ with ⟨_, _, hfalse⟩ | ⟨-, -, h⟩
    · exact hfalse.elim
    · exact h

end Tracks

end Laying

open Laying

namespace Declarations

/-! ## What a layout is computed from -/

abbrev keeping (d : Declarations) (c : LayoutCache) : Declarations := { d with layouts := c }

section Keeping

variable (d : Declarations) (c : LayoutCache)

theorem resolveLoop_keeping (aliases : Option AliasTable) (fuel : Nat) (seen : List String)
    (r : ResolvedType) :
    (d.keeping c).resolveLoop aliases fuel seen r = d.resolveLoop aliases fuel seen r := by
  induction fuel generalizing seen r with
  | zero => rfl
  | succ fuel ih =>
    simp only [resolveLoop, ih]
    rfl

theorem memberShape_keeping : (d.keeping c).memberShape = d.memberShape := by
  funext aliases inner a m
  simp only [memberShape, resolvedShape, resolve, resolveLoop_keeping]
  rfl

theorem layoutInside_keeping : (d.keeping c).layoutInside = d.layoutInside := by
  funext aliases fuel
  induction fuel with
  | zero => rfl
  | succ fuel ih =>
    simp only [layoutInside, placeMembers, memberShape_keeping, ih]

end Keeping

def measure (d : Declarations) (aliases : Option AliasTable)
    (inner : AggregateDecl → Laying Layout) (a : AggregateDecl) : Laying (List MemberShape) :=
  a.members.mapM (d.memberShape aliases inner a)

variable {d d' : Declarations} {aliases : Option AliasTable} {a b : AggregateDecl} {m : MemberDecl}
  {inner inner' : AggregateDecl → Laying Layout} {c c' : LayoutCache} {l : Layout}
  {r : ResolvedType}

theorem exists_measure (h : (d.placeMembers aliases inner a).run.run c = (.ok l, c')) :
    ∃ ss, (d.measure aliases inner a).run.run c = (.ok ss, c') ∧ ss.length = a.members.length ∧
      ofShapes a.isUnion (a.members.zip ss) = .ok l := by
  unfold placeMembers at h
  cases hu : a.isUnion with
  | true =>
    simp only [hu] at h
    obtain ⟨o, c1, hfold, hlift⟩ := run_bind_eq_ok h
    rw [run_lift] at hlift
    obtain ⟨hl, rfl⟩ := Prod.mk.inj hlift
    obtain ⟨ss, hss, hlength, ho⟩ := run_foldlM_eq_ok hfold
    refine ⟨ss, hss, hlength, ?_⟩
    simp only [ofShapes, if_true, ho, ok_bind, hl]
  | false =>
    simp only [hu] at h
    obtain ⟨p, c1, hfold, hlift⟩ := run_bind_eq_ok h
    rw [run_lift] at hlift
    obtain ⟨hl, rfl⟩ := Prod.mk.inj hlift
    obtain ⟨ss, hss, hlength, hp⟩ := run_foldlM_eq_ok hfold
    refine ⟨ss, hss, hlength, ?_⟩
    simp only [ofShapes, Bool.false_eq_true, if_false, hp, ok_bind, hl]

theorem mem_entities_of_tagged? {name : Json} {tag : Option EntityKind} {e : Entity}
    (h : d.tagged? name tag = some e) : e ∈ d.entities := by
  unfold tagged? at h
  split at h
  · exact mem_of_find? h
  · rcases Option.or_eq_some_iff.mp h with h | ⟨-, h⟩
    · rcases Option.or_eq_some_iff.mp h with h | ⟨-, h⟩ <;> exact mem_of_find? h
    · exact mem_of_find? h

/-- The aggregate or enumeration that a type leads to is one of the unit. -/
structure FoundIn (d : Declarations) (r : ResolvedType) : Prop where
  aggregate : ∀ b, r.aggregate = some b → .aggregate b ∈ d.entities
  enum : ∀ e, r.enum = some e → .enum e ∈ d.entities

theorem foundIn_resolvedTo {r' : ResolvedType} {name : Json} {tag : Option EntityKind}
    (h : resolvedTo r (d.tagged? name tag) = .ok r') (hr : d.FoundIn r) : d.FoundIn r' := by
  unfold resolvedTo at h
  split at h
  · rename_i hfound
    cases h
    exact ⟨fun b hb => Option.some.inj hb ▸ mem_entities_of_tagged? hfound, hr.enum⟩
  · rename_i hfound
    obtain ⟨spelling, -, h⟩ := bind_eq_ok h
    cases h
    exact ⟨hr.aggregate, fun e he => Option.some.inj he ▸ mem_entities_of_tagged? hfound⟩
  · cases h
    exact hr

theorem foundIn_resolveLoop {fuel : Nat} {seen : List String} {r' : ResolvedType}
    (h : d.resolveLoop aliases fuel seen r = .ok r') (hr : d.FoundIn r) : d.FoundIn r' := by
  induction fuel generalizing seen r with
  | zero => cases h
  | succ fuel ih =>
    unfold resolveLoop at h
    split at h
    · cases h
      exact ⟨hr.aggregate, hr.enum⟩
    split at h
    · cases h
      exact ⟨hr.aggregate, hr.enum⟩
    split at h
    · exact foundIn_resolvedTo h hr
    split at h
    · cases h
    obtain ⟨target, -, h⟩ := bind_eq_ok h
    cases target with
    | none => exact foundIn_resolvedTo h hr
    | some target =>
      obtain ⟨next, -, h⟩ := bind_eq_ok h
      exact ih h ⟨hr.aggregate, hr.enum⟩

theorem foundIn_resolve {spelling : String} (h : d.resolve aliases spelling = .ok r) :
    d.FoundIn r := by
  obtain ⟨p, -, h⟩ := bind_eq_ok h
  exact foundIn_resolveLoop h ⟨fun _ h => (by cases h), fun _ h => (by cases h)⟩

theorem mem_of_resolve {spelling : String}
    (h : d.resolve aliases spelling = .ok r) (hb : r.aggregate = some b) : b ∈ d.allAggregates :=
  mem_allAggregates.mpr ((foundIn_resolve h).aggregate b hb)

theorem mem_allAggregates_of_mem (h : a ∈ d.aggregates) : a ∈ d.allAggregates := by
  refine mem_allAggregates.mpr ?_
  rcases mem_append.mp h with h | h <;>
  · obtain ⟨e, he, ha⟩ := mem_filterMap.mp h
    exact Entity.eq_of_aggregate? ha ▸ mem_of_mem_fetch he

/-- Every aggregate is in the table of its kind. -/
theorem InStep.mem_aggregates (hd : d.InStep) : a ∈ d.aggregates ↔ a ∈ d.allAggregates := by
  refine ⟨mem_allAggregates_of_mem, fun h => ?_⟩
  have hmem : .aggregate a ∈ d.ofKind a.kind := hd.mem_ofKind (mem_allAggregates.mp h)
  have hof : a ∈ d.aggregatesOf a.kind := mem_filterMap.mpr ⟨_, hmem, rfl⟩
  unfold AggregateDecl.kind at hof
  split at hof
  · exact mem_append_right _ hof
  · exact mem_append_left _ hof

def layoutIssuesOf (d : Declarations) (aliases : Option AliasTable) (a : AggregateDecl) :
    Laying (List Issue) :=
  tryCatch (do
    return (← d.layoutWarnings aliases a).map fun text => Issue.warning .layout text a.identity)
    fun
      | .model _ => return []
      | e => throw e

/-! ## Embedding -/

def SizedBy (d : Declarations) (aliases : Option AliasTable) (m : MemberDecl) (b : AggregateDecl) :
    Prop :=
  m.size.isNull ∧ ∃ s r, m.type.spelling = .ok s ∧ d.resolve aliases s = .ok r ∧
    r.isPointer = false ∧ r.aggregate = some b

def Embeds (d : Declarations) (aliases : Option AliasTable) (a b : AggregateDecl) : Prop :=
  ∃ m ∈ a.members, d.SizedBy aliases m b

theorem SizedBy.mem (h : d.SizedBy aliases m b) : b ∈ d.allAggregates := by
  obtain ⟨-, s, r, -, hr, -, hb⟩ := h
  exact mem_of_resolve hr hb

theorem Embeds.mem (h : d.Embeds aliases a b) : b ∈ d.allAggregates := by
  obtain ⟨m, -, hm⟩ := h
  exact hm.mem

section Tracks

variable {P : LayoutCache → LayoutCache → Prop} {E : Error → Prop}

theorem tracks_elementExtent {r : ResolvedType}
    (hinner : ∀ b, r.isPointer = false → r.aggregate = some b → Tracks P E (inner b) (inner' b)) :
    Tracks P E (d.elementExtent inner a m r) (d.elementExtent inner' a m r) := by
  unfold elementExtent
  split
  · exact tracks_lift_bind fun _ _ => tracks_pure _
  · rename_i hpointer
    split
    · exact (hinner _ (Bool.eq_false_iff.mpr hpointer) ‹_›).bind fun _ => tracks_pure _
    · split
      · exact tracks_throw _
      · exact tracks_lift_bind fun _ _ => tracks_pure _
    · exact tracks_throw _

theorem tracks_memberShape (hinner : ∀ b, d.SizedBy aliases m b → Tracks P E (inner b) (inner' b)) :
    Tracks P E (d.memberShape aliases inner a m) (d.memberShape aliases inner' a m) := by
  unfold memberShape
  dsimp only
  split
  · rename_i hsize
    refine Tracks.bind ?_ fun _ => tracks_pure _
    refine tracks_lift_bind fun s hs => tracks_lift_bind fun r hr => tracks_lift_bind fun _ _ => ?_
    refine (tracks_elementExtent fun b hpointer hb => ?_).bind fun _ => tracks_pure _
    exact hinner b ⟨hsize, s, r, hs, hr, hpointer, hb⟩
  · exact tracks_lift_bind fun _ _ => tracks_pure _

theorem tracks_placeMembers (hinner : ∀ b, d.Embeds aliases a b → Tracks P E (inner b) (inner' b)) :
    Tracks P E (d.placeMembers aliases inner a) (d.placeMembers aliases inner' a) := by
  have hshape (m : MemberDecl) (hm : m ∈ a.members) :
      Tracks P E (d.memberShape aliases inner a m) (d.memberShape aliases inner' a m) :=
    tracks_memberShape fun b hb => hinner b ⟨m, hm, hb⟩
  unfold placeMembers
  split
  · refine (tracks_foldlM (fun o m hm => ?_) _).bind fun _ => tracks_lift _
    exact (hshape m hm).bind fun _ => tracks_lift _
  · refine (tracks_foldlM (fun p m hm => ?_) _).bind fun _ => tracks_lift _
    exact (hshape m hm).bind fun _ => tracks_lift _

end Tracks

theorem exists_inner_of_memberShape {s : MemberShape} (hm : d.SizedBy aliases m b)
    (h : (d.memberShape aliases inner a m).run.run c = (.ok s, c')) :
    ∃ l, (inner b).run.run c = (.ok l, c') := by
  obtain ⟨hsize, spelling, r, hs, hr, hpointer, hb⟩ := hm
  unfold memberShape at h
  rw [if_pos hsize] at h
  obtain ⟨shape, c1, hshape, hpacked⟩ := run_bind_eq_ok h
  obtain ⟨-, rfl⟩ := Prod.mk.inj hpacked
  obtain ⟨spelling', hs', hshape⟩ := run_lift_bind_eq_ok hshape
  obtain rfl : spelling = spelling' := Except.ok.inj (hs.symm.trans hs')
  obtain ⟨r', hr', hshape⟩ := run_lift_bind_eq_ok hshape
  obtain rfl : r = r' := Except.ok.inj (hr.symm.trans hr')
  obtain ⟨count, -, hshape⟩ := run_lift_bind_eq_ok hshape
  obtain ⟨extent, c2, hextent, hpure⟩ := run_bind_eq_ok hshape
  obtain ⟨-, rfl⟩ := Prod.mk.inj hpure
  unfold elementExtent at hextent
  rw [hpointer, hb] at hextent
  obtain ⟨l, c3, hinner, hpure⟩ := run_bind_eq_ok hextent
  obtain ⟨-, rfl⟩ := Prod.mk.inj hpure
  exact ⟨l, hinner⟩

section Preserves

variable {P : LayoutCache → Prop}

theorem preserves_memberShape (hinner : ∀ b ∈ d.allAggregates, Preserves P (inner b))
    (m : MemberDecl) : Preserves P (d.memberShape aliases inner a m) :=
  preserves_iff_tracks.mpr (tracks_memberShape fun b hb =>
    preserves_iff_tracks.mp (hinner b hb.mem))

theorem preserves_placeMembers (hinner : ∀ b ∈ d.allAggregates, Preserves P (inner b)) :
    Preserves P (d.placeMembers aliases inner a) :=
  preserves_iff_tracks.mpr (tracks_placeMembers fun b hb =>
    preserves_iff_tracks.mp (hinner b hb.mem))

section

variable (hinner : ∀ fuel inside, ∀ b ∈ d.allAggregates,
  Preserves P (d.layoutInside aliases fuel inside b))
include hinner

theorem preserves_layoutWarnings (ha : a ∈ d.allAggregates) :
    Preserves P (d.layoutWarnings aliases a) := by
  refine (hinner _ _ a ha).bind fun l => preserves_lift_bind fun sizes _ => ?_
  dsimp only
  split
  · exact preserves_pure _
  refine (preserves_placeMembers (hinner _ _)).bind fun better => ?_
  split
  · exact preserves_lift_bind fun _ _ => preserves_pure _
  · exact preserves_pure _

theorem preserves_layoutIssuesOf (ha : a ∈ d.allAggregates) :
    Preserves P (d.layoutIssuesOf aliases a) := by
  refine Preserves.catch ?_ fun e => ?_
  · exact (preserves_layoutWarnings hinner ha).bind fun _ => preserves_pure _
  · cases e with
    | model => exact preserves_pure _
    | _ => exact preserves_throw _

theorem preserves_layoutIssues : Preserves P (d.layoutIssues aliases) := by
  refine (preserves_mapM fun a ha => ?_).bind fun _ => preserves_pure _
  exact preserves_layoutIssuesOf hinner (mem_allAggregates_of_mem ha)

end

end Preserves

end Declarations

end Branchwise
