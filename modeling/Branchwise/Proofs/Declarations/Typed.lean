import Branchwise.Proofs.Layout.Laying

/-!
# Well-typed units

In a well-typed unit names and types are texts and the numbers of members and of the target are
whole.  Following a type can fail there in two ways only: it comes back to an alias, or the extent
of an array cannot be read.
-/

namespace Branchwise

open Entity List Spelling

/-! ## Values of a kind -/

def Scalar.isWhole (s : Scalar) : Bool := s.int?.isSome

namespace Json

def isText : Json → Bool
  | str _ => true
  | _ => false

/-- Whether a value spells a type: a text, or what counts as missing. -/
def isSpelling (j : Json) : Bool := j.isText || j.isVoid

def isWhole (j : Json) : Bool := j.whole?.isSome

variable {j : Json}

theorem exists_str_of_isText (h : j.isText) : ∃ s, j = str s := by
  cases j with
  | str s => exact ⟨s, rfl⟩
  | _ => cases h

theorem isKey_of_isText (h : j.isText) : j.isKey := by
  obtain ⟨s, rfl⟩ := exists_str_of_isText h
  rfl

theorem asKey_of_isKey (h : j.isKey) : j.asKey = .ok j := if_pos h

theorem exists_spelling (h : j.isSpelling) : ∃ s, j.spelling = .ok s := by
  rcases Bool.or_eq_true_iff.mp h with h | h
  · obtain ⟨s, rfl⟩ := exists_str_of_isText h
    exact ⟨s, rfl⟩
  · unfold spelling
    split
    · exact ⟨_, rfl⟩
    · exact ⟨"", if_pos h⟩

theorem mapM_asKey {js : List Json} (h : ∀ j ∈ js, j.isKey) : js.mapM asKey = .ok js := by
  induction js with
  | nil => rfl
  | cons j js ih =>
    rw [forall_mem_cons] at h
    rw [mapM_cons, asKey_of_isKey h.1, ih h.2]
    rfl

theorem exists_mapM_asText {js : List Json} (h : ∀ j ∈ js, j.isText) :
    ∃ texts, js.mapM asText = .ok texts := by
  refine exists_mapM_eq_ok fun j hj => ?_
  obtain ⟨s, rfl⟩ := exists_str_of_isText (h j hj)
  exact ⟨s, rfl⟩

theorem exists_sorted {js : List Json} (h : ∀ j ∈ js, j.isText) :
    ∃ ks, sorted js = .ok ks := by
  obtain ⟨texts, htexts⟩ := exists_mapM_asText h
  unfold sorted
  rw [htexts]
  split
  · exact ⟨_, rfl⟩
  · split
    · exact ⟨_, rfl⟩
    · exact ⟨_, rfl⟩
    · rename_i herror
      cases herror

end Json

/-! ## Records -/

structure Parameter.IsTyped (p : Parameter) : Prop where
  name : p.name.isKey
  type : p.type.isSpelling

structure VariableDecl.IsTyped (v : VariableDecl) : Prop where
  name : v.name.isKey
  type : v.type.isSpelling

structure FunctionDecl.IsTyped (f : FunctionDecl) : Prop where
  returnType : f.returnType.isSpelling
  parameters : ∀ p ∈ f.parameters, p.IsTyped
  locals : ∀ v ∈ f.locals, v.IsTyped
  calls : ∀ c ∈ f.calls, c.isKey

structure MemberDecl.IsTyped (m : MemberDecl) : Prop where
  name : m.name.isText
  type : m.type.isSpelling
  arrayLength : m.arrayLength.isNull ∨ m.arrayLength.isWhole
  bitWidth : m.bitWidth.isNull ∨ m.bitWidth.isWhole
  size : m.size.isNull ∨ m.size.isWhole
  alignment : m.alignment.isNull ∨ m.alignment.isWhole

structure AggregateDecl.IsTyped (a : AggregateDecl) : Prop where
  name : a.name.isText
  members : ∀ m ∈ a.members, m.IsTyped

structure EnumDecl.IsTyped (e : EnumDecl) : Prop where
  name : e.name.isText
  underlyingType : e.underlyingType.isSpelling
  values : ∀ v ∈ e.values, v.name.isKey

structure AliasDecl.IsTyped (a : AliasDecl) : Prop where
  name : a.name.isText
  type : a.type.isText

def Entity.IsTyped : Entity → Prop
  | function f => f.IsTyped
  | .variable v => v.IsTyped
  | aggregate a => a.IsTyped
  | enum e => e.IsTyped
  | typedef a => a.IsTyped
  | macroDef m => ∀ x ∈ m.dependencies, x.isKey
  | conditional c => ∀ x ∈ c.dependencies, x.isKey
  | .include _ => True

structure Target.IsTyped (t : Target) : Prop where
  pointerSize : t.pointerSize.isWhole
  longSize : t.longSize.isWhole
  longDoubleSize : t.longDoubleSize.isWhole
  maxAlignment : t.maxAlignment.isWhole

structure Layout.IsWhole (l : Layout) : Prop where
  size : l.size.isWhole
  alignment : l.alignment.isWhole
  padding : l.padding.isWhole

namespace Declarations

/-- A unit whose values are all of the kind that their use needs, and whose tables and index are in
step, as they are in every unit that is built. -/
structure IsTyped (d : Declarations) : Prop extends InStep d where
  target : d.target.IsTyped
  entities : ∀ e ∈ d.entities, e.IsTyped
  layouts : ∀ l ∈ d.layouts.values, l.IsWhole

variable {d : Declarations} {aliases : Option AliasTable}

theorem mem_entities_of_mem_filterMap {α : Type} {part : Entity → Option α} {whole : α → Entity}
    (hpart : ∀ e x, part e = some x → e = whole x) {k : EntityKind} {x : α}
    (hx : x ∈ (d.ofKind k).filterMap part) : whole x ∈ d.entities := by
  obtain ⟨e, he, hx⟩ := mem_filterMap.mp hx
  exact hpart e x hx ▸ mem_of_mem_fetch he

theorem mem_of_mem_functions {f : FunctionDecl} (h : f ∈ d.functions) :
    Entity.function f ∈ d.entities :=
  mem_entities_of_mem_filterMap (fun e x h => by cases e <;> cases h; rfl) h

theorem mem_of_mem_variableDecls {v : VariableDecl} (h : v ∈ d.variableDecls) :
    Entity.variable v ∈ d.entities :=
  mem_entities_of_mem_filterMap (fun e x h => by cases e <;> cases h; rfl) h

theorem mem_of_mem_enums {e : EnumDecl} (h : e ∈ d.enums) : Entity.enum e ∈ d.entities :=
  mem_entities_of_mem_filterMap (fun e x h => by cases e <;> cases h; rfl) h

theorem mem_of_mem_typedefs {a : AliasDecl} (h : a ∈ d.typedefs) : typedef a ∈ d.entities :=
  mem_entities_of_mem_filterMap (fun e x h => by cases e <;> cases h; rfl) h

theorem mem_of_mem_macros {m : MacroDecl} (h : m ∈ d.macros) : macroDef m ∈ d.entities :=
  mem_entities_of_mem_filterMap (fun e x h => by cases e <;> cases h; rfl) h

theorem mem_of_mem_conditionals {c : ConditionalDecl} (h : c ∈ d.conditionals) :
    conditional c ∈ d.entities :=
  mem_entities_of_mem_filterMap (fun e x h => by cases e <;> cases h; rfl) h

theorem mem_of_mem_aggregates {a : AggregateDecl} (h : a ∈ d.aggregates) :
    aggregate a ∈ d.entities :=
  mem_allAggregates.mp (mem_allAggregates_of_mem h)

end Declarations

/-! ## Following types -/

def Error.IsAliasCycle (e : Error) : Prop := ∃ chain, e = .aliasCycle chain

def Entity.types : Entity → List Json
  | function f =>
    f.returnType :: (f.parameters.map Parameter.type ++ f.locals.map VariableDecl.type)
  | .variable v => [v.type]
  | aggregate a => a.members.map MemberDecl.type
  | typedef a => [a.name]
  | _ => []

namespace Declarations

variable {d : Declarations} {aliases : Option AliasTable}

/-- The spellings that are taken apart when the types of a unit are followed: those of its entities,
those that aliases stand for, and what is left of a pointer without its stars. -/
inductive Spells (d : Declarations) (aliases : Option AliasTable) : String → Prop
  | type {e : Entity} {j : Json} {s : String} (he : e ∈ d.entities) (hj : j ∈ e.types)
      (hs : j.spelling = .ok s) : Spells d aliases (normalize s)
  | target {name t : String} (h : d.aliasTarget? aliases name = .ok (some t)) : Spells d aliases t
  | pointee {e : Entity} {j : Json} {s : String} {r : ResolvedType} (he : e ∈ d.entities)
      (hj : j ∈ e.types) (hs : j.spelling = .ok s) (hr : d.resolve aliases s = .ok r)
      (hpointer : r.isPointer) : Spells d aliases (normalize r.core)

/-- The error of an array extent that cannot be read, in a spelling of the unit. -/
def Unreadable (d : Declarations) (aliases : Option AliasTable) (e : Error) : Prop :=
  ∃ t, d.Spells aliases t ∧ parts t = .error e

def Unresolved (d : Declarations) (aliases : Option AliasTable) (e : Error) : Prop :=
  e.IsAliasCycle ∨ d.Unreadable aliases e

theorem ends_parts {t : String} (ht : d.Spells aliases t) :
    FailsOnly (d.Unresolved aliases) (parts t) :=
  ⟨fun _ _ => trivial, fun _ he => .inr ⟨t, ht, he⟩⟩

theorem exists_aliasTarget? (hd : d.IsTyped) (name : String) :
    ∃ t, d.aliasTarget? aliases name = .ok t := by
  unfold aliasTarget?
  split
  · rename_i a ha
    have hmem : typedef a ∈ d.entities := by
      unfold typedef? at ha
      split at ha
      · rename_i hfind
        exact Option.some.inj ha ▸ mem_of_find? hfind
      · cases ha
    obtain ⟨s, hs⟩ := Json.exists_str_of_isText (AliasDecl.IsTyped.type (hd.entities _ hmem))
    exact ⟨_, by rw [hs]; rfl⟩
  · exact ⟨_, rfl⟩

theorem exists_resolvedTo (hd : d.IsTyped) (r : ResolvedType) (name : Json)
    (tag : Option EntityKind) : ∃ r', resolvedTo r (d.tagged? name tag) = .ok r' := by
  unfold resolvedTo
  split
  · exact ⟨_, rfl⟩
  · rename_i e he
    have hmem : e.IsTyped := hd.entities _ (mem_entities_of_tagged? he)
    obtain ⟨s, hs⟩ := Json.exists_spelling hmem.underlyingType
    exact ⟨_, by rw [hs]; rfl⟩
  · exact ⟨_, rfl⟩

theorem ends_resolveLoop (hd : d.IsTyped) (fuel : Nat) (seen : List String) (r : ResolvedType) :
    FailsOnly (d.Unresolved aliases) (d.resolveLoop aliases fuel seen r) := by
  have hend (r : ResolvedType) (name : Json) (tag : Option EntityKind) :
      FailsOnly (d.Unresolved aliases) (resolvedTo r (d.tagged? name tag)) := by
    obtain ⟨r', hr'⟩ := exists_resolvedTo hd r name tag
    exact .of_exists ⟨r', hr', trivial⟩
  -- Running out of fuel counts as a cycle, so no bound on the number of aliases is needed.
  induction fuel generalizing seen r with
  | zero => exact .error (.inl ⟨_, rfl⟩)
  | succ fuel ih =>
    unfold resolveLoop
    split
    · exact .ok trivial
    split
    · exact .ok trivial
    split
    · exact hend _ _ _
    split
    · exact .error (.inl ⟨_, rfl⟩)
    obtain ⟨target, htarget⟩ : ∃ t, d.aliasTarget? aliases r.core = .ok t :=
      exists_aliasTarget? hd r.core
    rw [htarget]
    cases target with
    | none => exact hend _ _ _
    | some t =>
      exact (ends_parts (.target htarget)).bind fun next _ => ih _ _

theorem ends_resolve (hd : d.IsTyped) {s : String} (hs : d.Spells aliases (normalize s)) :
    FailsOnly (d.Unresolved aliases) (d.resolve aliases s) := by
  unfold resolve
  exact (ends_parts hs).bind fun p _ => ends_resolveLoop hd _ _ _

end Declarations

end Branchwise
