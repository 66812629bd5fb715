import Branchwise.Proofs.Declarations.Typed
import Branchwise.Proofs.Domain.Intersection
import Branchwise.Proofs.Graph.Order

/-!
# Findings on well-typed units

Looking for findings follows types, brings names into an order and joins them.  In a well-typed unit
only following a type can fail; a cycle of aliases is a finding itself, and what cannot be evaluated
is one too.
-/

namespace Branchwise

open List DepGraph

/-! ## Dependencies between types -/

structure DepNode.HasTexts (n : DepNode) : Prop where
  name : n.name.isText
  target : ∀ e ∈ n.outEdges, e.target.isText

namespace DepGraph

def HasTexts (g : DepGraph) : Prop :=
  ∀ x ∈ g.nodes.entries, x.1.isText ∧ x.2.HasTexts

variable {g : DepGraph}

theorem HasTexts.addNode (hg : g.HasTexts) {key name : Json} (hkey : key.isText)
    (hname : name.isText) (kind file line : Json) :
    (g.addNode key name kind file line).HasTexts := by
  have hnew : DepNode.HasTexts ⟨key, name, kind, file, line, [], []⟩ := ⟨hname, nofun⟩
  intro x hx
  change x ∈ (g.nodes.putNew _ _).entries at hx
  unfold Table.putNew at hx
  split at hx
  · exact hg x hx
  · rcases Table.mem_entries_put hx with hx | rfl | ⟨w, -, hx, hw⟩
    · exact hg x hx
    · exact ⟨hkey, hnew⟩
    · exact ⟨(hg _ hx).1, hw ▸ hnew⟩

theorem HasTexts.adjust (hg : g.HasTexts) (key : Json) {f : DepNode → DepNode}
    (hf : ∀ n, n.HasTexts → (f n).HasTexts) :
    HasTexts { g with nodes := g.nodes.adjust key f } := by
  intro x hx
  obtain ⟨y, hy, rfl⟩ := mem_map.mp hx
  obtain ⟨hkey, hnode⟩ := hg y hy
  split
  · exact ⟨hkey, hf _ hnode⟩
  · exact ⟨hkey, hnode⟩

theorem HasTexts.link (hg : g.HasTexts) {e : DepEdge} (he : e.target.isText) :
    (g.link e).HasTexts := by
  have hout := hg.adjust e.source (f := fun n => { n with outEdges := n.outEdges ++ [e] })
    fun n hn => ⟨hn.name, forall_mem_append.mpr ⟨hn.target, forall_mem_singleton.mpr he⟩⟩
  unfold DepGraph.link addEdge
  split
  · exact hg
  split
  · exact hout
  · exact hout.adjust e.target fun n hn => ⟨hn.name, hn.target⟩

theorem HasTexts.containmentCycles (hg : g.HasTexts) :
    ∀ c ∈ g.containmentCycles, ∀ k ∈ c, k.isText := by
  unfold DepGraph.containmentCycles
  split
  · rename_i cycles hcycles
    obtain ⟨-, -, hcycles⟩ := bind_eq_ok hcycles
    cases hcycles
    have htexts : ∀ k ∈ (g.digraph (some [.contains])).mentioned, k.isText := by
      refine forall_mem_append.mpr ⟨fun k hk => ?_, fun k hk => ?_⟩
      · obtain ⟨x, hx, rfl⟩ := mem_map.mp hk
        exact (hg x hx).1
      · obtain ⟨ks, hks, hk⟩ := mem_flatten.mp hk
        obtain ⟨y, hy, rfl⟩ := mem_map.mp hks
        obtain ⟨x, hx, rfl⟩ := mem_map.mp hy
        obtain ⟨e, he, rfl⟩ := mem_map.mp hk
        exact (hg x hx).2.target e (mem_of_mem_filter he)
    have hapart : (g.digraph (some [.contains])).IsApart := fun a b ha hb =>
      Json.separates_isText a b (Json.exists_str_of_isText (htexts a ha))
        (Json.exists_str_of_isText (htexts b hb))
    have hkeys := fun c hc k hk =>
      htexts k (hapart.mem_mentioned_of_mem_cycles Json.plain c hc k hk)
    rw [forall_mem_map]
    intro c hc
    rw [forall_mem_map]
    intro k hk
    cases hnode : g.nodes.get? k with
    | none => exact hkeys c hc k hk
    | some n =>
      obtain ⟨k', -, hn⟩ := Table.exists_mem_of_get? hnode
      exact (hg _ hn).2.name
  · nofun

end DepGraph

namespace Declarations

variable {d : Declarations} {aliases : Option AliasTable}

theorem hasTexts_typeNodes (hd : d.IsTyped) : (typeNodes d).HasTexts := by
  have hempty : (DepGraph.empty .types).HasTexts := nofun
  unfold typeNodes
  refine foldlRecOn d.typedefs _ (foldlRecOn d.enums _
    (foldlRecOn d.aggregates _ hempty fun g hg a ha => ?_) fun g hg e he => ?_)
    fun g hg a ha => ?_
  · have htyped : a.IsTyped := hd.entities _ (mem_of_mem_aggregates ha)
    exact hg.addNode rfl htyped.name _ _ _
  · have htyped : e.IsTyped := hd.entities _ (mem_of_mem_enums he)
    exact hg.addNode rfl htyped.name _ _ _
  · have htyped : a.IsTyped := hd.entities _ (mem_of_mem_typedefs ha)
    exact hg.addNode htyped.name htyped.name _ _ _

theorem isText_of_targetKey? {r : ResolvedType} {k : Json} (h : targetKey? r = some k) :
    k.isText := by
  unfold targetKey? at h
  split at h
  · exact Option.some.inj h ▸ rfl
  · exact Option.some.inj h ▸ rfl
  · cases h

theorem ends_resolve? (hd : d.IsTyped) {s : String} (hs : d.Spells aliases (Spelling.normalize s)) :
    Ends (fun o => ∀ r, o = some r → d.resolve aliases s = .ok r) (d.Unreadable aliases)
      (DepGraph.resolve? d aliases s) := by
  have hresolve := ends_resolve hd hs
  unfold DepGraph.resolve?
  split
  · rename_i r hr
    exact .ok fun r' hr' => Option.some.inj hr' ▸ hr
  · exact .ok nofun
  · rename_i e hne he
    rcases hresolve.of_eq_error e he with ⟨chain, rfl⟩ | he
    · exact absurd rfl (hne chain)
    · exact .error he

theorem ends_memberTarget? (hd : d.IsTyped) {a : AggregateDecl} {m : MemberDecl}
    (ha : Entity.aggregate a ∈ d.entities) (hm : m ∈ a.members) :
    Ends (fun o => ∀ x, o = some x → x.1.isText) (d.Unreadable aliases)
      (memberTarget? d aliases m) := by
  have htyped : m.IsTyped := AggregateDecl.IsTyped.members (hd.entities _ ha) m hm
  have htype : m.type ∈ (Entity.aggregate a).types := mem_map_of_mem hm
  obtain ⟨s, hs⟩ := Json.exists_spelling htyped.type
  unfold memberTarget?
  rw [hs, ok_bind]
  refine (ends_resolve? hd (.type ha htype hs)).bind fun o ho => ?_
  cases o with
  | none => exact .ok nofun
  | some r =>
    have hr := ho r rfl
    dsimp only
    split
    · rename_i hpointer
      refine (ends_resolve? hd (.pointee ha htype hs hr hpointer)).bind fun o' _ => .ok ?_
      intro x hx
      obtain ⟨k, hk, rfl⟩ := Option.map_eq_some_iff.mp hx
      obtain ⟨r', -, hk⟩ := Option.bind_eq_some_iff.mp hk
      exact isText_of_targetKey? hk
    · refine .ok fun x hx => ?_
      obtain ⟨k, hk, rfl⟩ := Option.map_eq_some_iff.mp hx
      exact isText_of_targetKey? hk

theorem isText_of_aliasTargetKey? {g : DepGraph} {type : String} {k : Json}
    (h : aliasTargetKey? d g type = some k) : k.isText := by
  unfold aliasTargetKey? at h
  dsimp only at h
  split at h
  · exact Option.some.inj h ▸ rfl
  split at h
  · split at h
    · exact Option.some.inj h ▸ rfl
    · cases h
  · cases h

theorem exists_isFunctionPointer {a : AliasDecl} (ha : a.IsTyped) :
    ∃ s b, a.spelling = .ok s ∧ a.isFunctionPointer = .ok b := by
  obtain ⟨s, hs⟩ := Json.exists_str_of_isText ha.type
  have hspelling : a.spelling = .ok s := by
    unfold AliasDecl.spelling
    rw [hs]
  exact ⟨s, _, hspelling, by rw [AliasDecl.isFunctionPointer, hspelling]; rfl⟩

theorem ends_ofTypes (hd : d.IsTyped) :
    Ends HasTexts (d.Unreadable aliases) (ofTypes d aliases) := by
  refine Ends.bind (Q := HasTexts) ?_ fun g hg => ?_
  · refine .foldlM (fun g hg a ha => ?_) (hasTexts_typeNodes hd)
    refine .foldlM (fun g hg m hm => ?_) hg
    refine (ends_memberTarget? hd (mem_of_mem_aggregates ha) hm).bind fun o ho => ?_
    split
    · split
      · exact .ok (hg.link (ho _ rfl))
      · exact .ok hg
    · exact .ok hg
  · refine .foldlM (fun g hg a ha => ?_) hg
    obtain ⟨s, b, hs, hb⟩ := exists_isFunctionPointer (hd.entities _ (mem_of_mem_typedefs ha))
    unfold linkAlias
    rw [hb, hs]
    cases b with
    | true => exact .ok hg
    | false =>
      simp only [ok_bind, Bool.false_eq_true, if_false]
      split
      · rename_i k hk
        exact .ok (hg.link (isText_of_aliasTargetKey? hk))
      · exact .ok hg

/-! ## Findings of every kind -/

variable {P : Error → Prop}

theorem failsOnly_each {α : Type} {xs : List α} {check : α → Except Error (List Issue)}
    (h : ∀ x ∈ xs, FailsOnly P (check x)) : FailsOnly P (each xs check) :=
  (Ends.mapM h).bind fun _ _ => .ok trivial

theorem ends_asKey {j : Json} (h : j.isKey) : FailsOnly P j.asKey :=
  .of_exists ⟨j, Json.asKey_of_isKey h, trivial⟩

theorem failsOnly_repeatedAliases (hd : d.IsTyped) : FailsOnly P d.repeatedAliases := by
  refine Ends.bind (Q := fun _ => True) ?_ fun _ _ => .ok trivial
  refine (Ends.mapM (Q := fun _ => True) fun a ha => ?_).imp (fun _ _ => trivial) fun _ h => h
  have htyped : a.IsTyped := hd.entities _ (mem_of_mem_typedefs ha)
  obtain ⟨s, hs⟩ := Json.exists_str_of_isText htyped.type
  rw [hs]
  exact .ok trivial

theorem failsOnly_repeatedParameters (f : FunctionDecl) (seen : List Json) {ps : List Parameter}
    (hps : ∀ p ∈ ps, p.IsTyped) : FailsOnly P (repeatedParameters f seen ps) := by
  induction ps generalizing seen with
  | nil => exact .ok trivial
  | cons p ps ih =>
    rw [forall_mem_cons] at hps
    exact (ends_asKey hps.1.name).bind fun _ _ => (ih _ hps.2).bind fun _ _ => .ok trivial

theorem failsOnly_repeatedLocals (f : FunctionDecl) (seen : List Json) {vs : List VariableDecl}
    (hvs : ∀ v ∈ vs, v.IsTyped) : FailsOnly P (repeatedLocals f seen vs) := by
  induction vs generalizing seen with
  | nil => exact .ok trivial
  | cons v vs ih =>
    rw [forall_mem_cons] at hvs
    exact (ends_asKey hvs.1.name).bind fun _ _ => (ih _ hvs.2).bind fun _ _ => .ok trivial

theorem failsOnly_repeatedMembers {a : AggregateDecl} (ha : a.IsTyped) :
    FailsOnly P (repeatedMembers a) := by
  unfold repeatedMembers
  dsimp only
  have htext : ∀ n ∈ ((a.members.map MemberDecl.name).filter fun n => !n.isVoid).filter (fun n =>
      decide (1 < ((a.members.map MemberDecl.name).filter fun n => !n.isVoid).count n))
        |>.eraseDups, n.isText := by
    intro n hn
    have hmem := mem_of_mem_filter (mem_of_mem_filter (Table.mem_of_mem_eraseDups hn))
    obtain ⟨m, hm, rfl⟩ := mem_map.mp hmem
    exact (ha.members m hm).name
  rw [Json.mapM_asKey fun n hn => Json.isKey_of_isText (htext n hn), ok_bind]
  obtain ⟨ks, hks⟩ := Json.exists_sorted htext
  rw [hks]
  exact .ok trivial

theorem failsOnly_duplicates (hd : d.IsTyped) : FailsOnly P d.duplicates := by
  refine (failsOnly_repeatedAliases hd).bind fun _ _ => ?_
  refine (failsOnly_each fun f hf => ?_).bind fun _ _ =>
    (failsOnly_each fun a ha => ?_).bind fun _ _ => .ok trivial
  · have htyped : f.IsTyped := hd.entities _ (mem_of_mem_functions hf)
    exact (failsOnly_repeatedParameters f [] htyped.parameters).bind fun _ _ =>
      (failsOnly_repeatedLocals f [] htyped.locals).bind fun _ _ => .ok trivial
  · exact failsOnly_repeatedMembers (hd.entities _ (mem_of_mem_aggregates ha))

theorem failsOnly_checkType (hd : d.IsTyped) {e : Entity} {j : Json} (he : e ∈ d.entities)
    (hj : j ∈ e.types) (htype : j.isSpelling) (what : String) (owner : Identity) :
    FailsOnly (d.Unreadable aliases) (d.checkType aliases j what owner) := by
  obtain ⟨s, hs⟩ := Json.exists_spelling htype
  have hresolve : FailsOnly (d.Unresolved aliases) (d.resolve aliases s) :=
    ends_resolve hd (.type he hj hs)
  unfold checkType
  rw [hs, ok_bind]
  dsimp only
  split
  · exact .ok trivial
  split
  · exact .ok trivial
  · rename_i err hne herr
    rcases hresolve.of_eq_error err herr with ⟨chain, rfl⟩ | herr
    · exact absurd rfl (hne chain)
    · exact .error herr
  · exact .ok trivial

theorem failsOnly_checkAliases (hd : d.IsTyped) :
    FailsOnly (d.Unreadable aliases) (d.checkAliases aliases) := by
  refine (Ends.foldlM (Q := fun _ => True) (fun acc _ a ha => ?_) trivial).bind fun _ _ =>
    .ok trivial
  have hmem := mem_of_mem_typedefs ha
  have htyped : a.IsTyped := hd.entities _ hmem
  obtain ⟨-, b, -, hb⟩ := exists_isFunctionPointer htyped
  obtain ⟨s, hs⟩ := Json.exists_str_of_isText htyped.name
  have hspelling : a.name.spelling = .ok s := by rw [hs]; rfl
  have hresolve : FailsOnly (d.Unresolved aliases) (d.resolve aliases s) :=
    ends_resolve hd (.type hmem (mem_singleton.mpr rfl) hspelling)
  unfold checkAlias
  rw [hb, hspelling]
  cases b with
  | true => exact .ok trivial
  | false =>
    simp only [ok_bind, Bool.false_eq_true, if_false]
    split
    · split <;> exact .ok trivial
    · rename_i err hne herr
      rcases hresolve.of_eq_error err herr with ⟨chain, rfl⟩ | herr
      · exact absurd rfl (hne chain)
      · exact .error herr
    · split <;> exact .ok trivial

theorem failsOnly_checkFunction (hd : d.IsTyped) {f : FunctionDecl} (hf : f ∈ d.functions) :
    FailsOnly (d.Unreadable aliases) (d.checkFunction aliases f) := by
  have hmem := mem_of_mem_functions hf
  have htyped : f.IsTyped := hd.entities _ hmem
  refine (failsOnly_checkType hd hmem mem_cons_self htyped.returnType _ _).bind fun _ _ => ?_
  refine (failsOnly_each fun p hp => ?_).bind fun _ _ =>
    (failsOnly_each fun v hv => ?_).bind fun _ _ => .ok trivial
  · refine failsOnly_checkType hd hmem (mem_cons_of_mem _ ?_) (htyped.parameters p hp).type _ _
    exact mem_append_left _ (mem_map_of_mem hp)
  · refine failsOnly_checkType hd hmem (mem_cons_of_mem _ ?_) (htyped.locals v hv).type _ _
    exact mem_append_right _ (mem_map_of_mem hv)

theorem failsOnly_checkTypes (hd : d.IsTyped) :
    FailsOnly (d.Unreadable aliases) (d.checkTypes aliases) := by
  refine (failsOnly_checkAliases hd).bind fun _ _ =>
    (failsOnly_each fun f hf => failsOnly_checkFunction hd hf).bind fun _ _ => ?_
  refine (failsOnly_each fun v hv => ?_).bind fun _ _ =>
    (failsOnly_each fun a ha => failsOnly_each fun m hm => ?_).bind fun _ _ => .ok trivial
  · have hmem := mem_of_mem_variableDecls hv
    have htyped : v.IsTyped := hd.entities _ hmem
    exact failsOnly_checkType hd hmem (mem_singleton.mpr rfl) htyped.type _ _
  · have hmem := mem_of_mem_aggregates ha
    have htyped : a.IsTyped := hd.entities _ hmem
    exact failsOnly_checkType hd hmem (mem_map_of_mem hm) (htyped.members m hm).type _ _

theorem failsOnly_checkNames {names : List Json} (h : ∀ n ∈ names, n.isKey)
    (isKnown : Json → Bool) (finding : Json → Issue) :
    FailsOnly P (checkNames names isKnown finding) := by
  unfold checkNames
  rw [Json.mapM_asKey h]
  exact .ok trivial

theorem failsOnly_checkReferences (hd : d.IsTyped) : FailsOnly P d.checkReferences := by
  refine (failsOnly_each fun f hf => failsOnly_checkNames ?_ _ _).bind fun _ _ =>
    (failsOnly_each fun m hm => failsOnly_checkNames ?_ _ _).bind fun _ _ =>
      (failsOnly_each fun c hc => failsOnly_checkNames ?_ _ _).bind fun _ _ => .ok trivial
  · have htyped : f.IsTyped := hd.entities _ (mem_of_mem_functions (mem_of_mem_filter hf))
    exact htyped.calls
  · exact hd.entities _ (mem_of_mem_macros hm)
  · exact hd.entities _ (mem_of_mem_conditionals hc)

theorem failsOnly_checkContainment (hd : d.IsTyped) :
    FailsOnly (d.Unreadable aliases) (d.checkContainment aliases) := by
  refine (ends_ofTypes hd).bind fun g hg => ?_
  refine (Ends.mapM (Q := fun _ => True) fun cycle hcycle => ?_).imp (fun _ _ => trivial)
    fun _ h => h
  obtain ⟨texts, htexts⟩ := Json.exists_mapM_asText (hg.containmentCycles cycle hcycle)
  unfold Json.joined
  rw [htexts]
  split <;> exact .ok trivial

theorem failsOnly_evaluateFrom (e : EnumDecl) (known : Table Json Scalar) (next : Int)
    {vs : List Enumerator} (hvs : ∀ v ∈ vs, v.name.isKey) :
    FailsOnly (fun err => ∃ fault, err = .model fault) (e.evaluateFrom known next vs) := by
  induction vs generalizing known next with
  | nil => exact .ok trivial
  | cons v vs ih =>
    rw [forall_mem_cons] at hvs
    refine Ends.bind (Q := fun _ => True) ?_ fun x _ =>
      (ends_asKey hvs.1).bind fun _ _ => (ih _ _ hvs.2).bind fun _ _ => .ok trivial
    unfold EnumDecl.enumeratorValue
    split
    · exact .ok trivial
    · exact .ok trivial
    · exact .ok trivial
    · split
      · exact .ok trivial
      · exact .error ⟨_, rfl⟩

theorem failsOnly_checkEnums (hd : d.IsTyped) : FailsOnly P d.checkEnums := by
  refine failsOnly_each fun e he => ?_
  have htyped : e.IsTyped := hd.entities _ (mem_of_mem_enums he)
  have hresolved := failsOnly_evaluateFrom e .empty 0 htyped.values
  split
  · exact .ok trivial
  · exact .ok trivial
  · rename_i err hne herr
    obtain ⟨fault, rfl⟩ := hresolved.of_eq_error err herr
    exact absurd rfl (hne fault)

theorem failsOnly_issues (hd : d.IsTyped) : FailsOnly (d.Unreadable aliases) (d.issues aliases) :=
  (failsOnly_duplicates hd).bind fun _ _ => (failsOnly_checkTypes hd).bind fun _ _ =>
    (failsOnly_checkReferences hd).bind fun _ _ => (failsOnly_checkContainment hd).bind fun _ _ =>
      (failsOnly_checkEnums hd).bind fun _ _ => .ok trivial

end Declarations

end Branchwise
