import Branchwise.Proofs.Depends.Wired
import Branchwise.Proofs.Graph.Agreement
import Branchwise.Proofs.Layout.Containment
import Branchwise.Proofs.Session.Validation

/-!
# Two checks for containment by value

An aggregate that contains itself by value has no layout, and it lies on a cycle of containment in
the graph of the types of its unit.  The edges of containment between aggregates are the relation
along which layouts are computed, so both checks find the same aggregates.
-/

namespace Branchwise

open List Relation Json

namespace DepGraph

variable {g g' : DepGraph} {new : DepEdge → Prop}

/-! ## Keys with tags -/

theorem taggedKey_inj {k k' : EntityKind} {n n' : Json} (h : taggedKey k n = taggedKey k' n') :
    k = k' ∧ n.plain = n'.plain := by
  -- No word for a kind has a blank in it, so it ends at the first one.
  have hword (k : EntityKind) (cs : List Char) :
      (k.name.toList ++ ' ' :: cs).takeWhile (· ≠ ' ') = k.name.toList := by
    cases k <;> rfl
  have hlist (k : EntityKind) (n : Json) :
      (k.name ++ " " ++ n.plain).toList = k.name.toList ++ ' ' :: n.plain.toList := by
    simp
  have heq := congrArg String.toList (str.inj h)
  rw [hlist, hlist] at heq
  have hname : k.name = k'.name := by
    rw [← String.toList_inj, ← hword k n.plain.toList, heq, hword]
  have hof (k : EntityKind) : EntityKind.ofName? k.name = some k := by
    cases k <;> decide
  obtain rfl : k = k' := Option.some.inj (by rw [← hof k, hname, hof k'])
  exact ⟨rfl, String.toList_inj.mp (cons.inj (append_cancel_left heq)).2⟩

/-! ## Adding edges one after another -/

/-- Some new edges were added between the nodes. -/
structure Grows (g g' : DepGraph) (new : DepEdge → Prop) : Prop where
  wired : g'.IsWired
  keys : g'.nodes.keys = g.nodes.keys
  mem_edges : ∀ e, e ∈ g'.edges ↔ e ∈ g.edges ∨ new e

theorem Grows.refl (hg : g.IsWired) (hnew : ∀ e, ¬new e) : Grows g g new :=
  ⟨hg, rfl, fun e => (or_iff_left (hnew e)).symm⟩

theorem Grows.link (hg : g.IsWired) {e : DepEdge} (hsource : e.source ∈ g.nodes.keys)
    (htarget : e.target ∈ g.nodes.keys) : Grows g (g.link e) (· = e) := by
  have hok : (g.addEdge e).1 = .ok () := by
    unfold addEdge
    rw [hg.contains_iff.mpr hsource, hg.contains_iff.mpr htarget]
    rfl
  obtain ⟨-, -, hedges, hkeys, -⟩ := IsWired.exists_entry_of_addEdge hok
  refine ⟨hg.addEdge hok, hkeys, fun e' => ?_⟩
  rw [DepGraph.link, hedges, mem_append, mem_singleton]

theorem Grows.foldlM {β : Type} {f : DepGraph → β → Except Error DepGraph} {xs : List β}
    {keys : List Json} {new : β → DepEdge → Prop}
    (hf : ∀ x ∈ xs, ∀ g g' : DepGraph, g.IsWired → g.nodes.keys = keys → f g x = .ok g' →
      Grows g g' (new x))
    (hg : g.IsWired) (hkeys : g.nodes.keys = keys) (h : xs.foldlM f g = .ok g') :
    Grows g g' fun e => ∃ x ∈ xs, new x e := by
  induction xs generalizing g with
  | nil =>
    cases h
    exact .refl hg fun e ⟨x, hx, _⟩ => absurd hx not_mem_nil
  | cons x xs ih =>
    rw [forall_mem_cons] at hf
    obtain ⟨g1, hg1, h⟩ := bind_eq_ok h
    have hfirst := hf.1 g g1 hg hkeys hg1
    have hrest := ih hf.2 hfirst.wired (hfirst.keys.trans hkeys) h
    refine ⟨hrest.wired, hrest.keys.trans hfirst.keys, fun e => ?_⟩
    rw [hrest.mem_edges, hfirst.mem_edges]
    simp only [mem_cons, exists_eq_or_imp, or_assoc]

/-! ## The nodes of the types -/

structure HasNodes (g : DepGraph) (keys : List Json) : Prop where
  wired : g.IsWired
  edges : g.edges = []
  mem : ∀ k ∈ keys, k ∈ g.nodes.keys

theorem HasNodes.foldl_addNode {β : Type} {keys : List Json} (hg : g.HasNodes keys) {xs : List β}
    {key name kind file line : β → Json} (hkey : ∀ x ∈ xs, (key x).IsText) :
    (xs.foldl (fun (g : DepGraph) x => g.addNode (key x) (name x) (kind x) (file x) (line x))
      g).HasNodes (keys ++ xs.map key) := by
  induction xs generalizing g keys with
  | nil => simpa using hg
  | cons x xs ih =>
    rw [forall_mem_cons] at hkey
    have hnew : (g.addNode (key x) (name x) (kind x) (file x) (line x)).HasNodes
        (keys ++ [key x]) := by
      refine ⟨hg.wired.addNode hkey.1 _ _ _ _, hg.edges, ?_⟩
      rw [IsWired.keys_addNode]
      split
      · rename_i hcontains
        exact forall_mem_append.mpr ⟨hg.mem,
          forall_mem_singleton.mpr (hg.wired.contains_iff.mp hcontains)⟩
      · exact forall_mem_append.mpr ⟨fun k hk => mem_append_left _ (hg.mem k hk),
          forall_mem_singleton.mpr (mem_append_right _ mem_cons_self)⟩
    rw [map_cons, append_cons]
    exact ih hnew hkey.2

end DepGraph

namespace Declarations

open DepGraph

variable {d : Declarations} {aliases : Option AliasTable} {a b : AggregateDecl} {g : DepGraph}
  {s : String} {m : MemberDecl}

def keyOf (a : AggregateDecl) : Json := taggedKey a.kind a.name

theorem hasNodes_typeNodes (hd : d.IsTyped) :
    (typeNodes d).HasNodes (d.aggregates.map keyOf
      ++ d.enums.map (fun e => taggedKey .enum e.name) ++ d.typedefs.map AliasDecl.name) := by
  have hempty : (DepGraph.empty .types).HasNodes [] := ⟨.empty .types, rfl, nofun⟩
  refine HasNodes.foldl_addNode (HasNodes.foldl_addNode ?_ fun e _ => ⟨_, rfl⟩) fun t ht => ?_
  · exact HasNodes.foldl_addNode hempty fun a _ => ⟨_, rfl⟩
  · have htyped : t.IsTyped := hd.entities _ (mem_of_mem_typedefs ht)
    exact exists_str_of_isText htyped.name

/-! ## The edges of the members -/

/-- The type behind each pointer can be read, or leads into a cycle of aliases. -/
def ReadsPointees (d : Declarations) (aliases : Option AliasTable) : Prop :=
  ∀ a ∈ d.allAggregates, ∀ m ∈ a.members, ∀ s r, m.type.spelling = .ok s →
    d.resolve aliases s = .ok r → r.isPointer →
      (∃ r', d.resolve aliases r.core = .ok r') ∨
        ∃ chain, d.resolve aliases r.core = .error (.aliasCycle chain)

theorem resolve?_eq_some_iff {r : ResolvedType} :
    DepGraph.resolve? d aliases s = .ok (some r) ↔ d.resolve aliases s = .ok r := by
  unfold DepGraph.resolve?
  split
  · rename_i r' hr'
    rw [hr']
    exact ⟨fun h => congrArg Except.ok (Option.some.inj (Except.ok.inj h)),
      fun h => congrArg (Except.ok ∘ some) (Except.ok.inj h)⟩
  · rename_i hchain
    rw [hchain]
    exact ⟨nofun, nofun⟩
  · rename_i he
    rw [he]
    exact ⟨nofun, nofun⟩

theorem exists_resolve?_iff :
    (∃ o, DepGraph.resolve? d aliases s = .ok o) ↔
      (∃ r, d.resolve aliases s = .ok r) ∨
        ∃ chain, d.resolve aliases s = .error (.aliasCycle chain) := by
  unfold DepGraph.resolve?
  split
  · rename_i r hr
    exact ⟨fun _ => .inl ⟨r, hr⟩, fun _ => ⟨_, rfl⟩⟩
  · rename_i chain hchain
    exact ⟨fun _ => .inr ⟨chain, hchain⟩, fun _ => ⟨_, rfl⟩⟩
  · rename_i e hother he
    refine ⟨nofun, ?_⟩
    rintro (⟨r, hr⟩ | ⟨chain, hchain⟩)
    · cases he.symm.trans hr
    · exact absurd (Except.error.inj (he.symm.trans hchain)) (hother chain)

theorem memberTarget?_eq {r : ResolvedType}
    (hs : m.type.spelling = .ok s) (hr : d.resolve aliases s = .ok r) :
    memberTarget? d aliases m =
      if r.isPointer then
        DepGraph.resolve? d aliases r.core >>= fun o =>
          pure ((o.bind targetKey?).map fun k => (k, .pointsTo))
      else pure ((targetKey? r).map fun k => (k, .contains)) := by
  unfold memberTarget?
  rw [hs, ok_bind, resolve?_eq_some_iff.mpr hr, ok_bind]

theorem exists_memberTarget? (hmembers : d.HasKnownMembers aliases)
    (hpointees : d.ReadsPointees aliases) (ha : a ∈ d.allAggregates)
    (hm : m ∈ a.members) : ∃ o, memberTarget? d aliases m = .ok o := by
  obtain ⟨s, r, hs, hr, -⟩ := hmembers.known a ha m hm
  rw [memberTarget?_eq hs hr]
  split
  · rename_i hpointer
    obtain ⟨o, ho⟩ := exists_resolve?_iff.mpr (hpointees a ha m hm s r hs hr hpointer)
    rw [ho]
    exact ⟨_, rfl⟩
  · exact ⟨_, rfl⟩

theorem readsPointees_of_ofTypes (hd : d.InStep) (h : ofTypes d aliases = .ok g) :
    d.ReadsPointees aliases := by
  intro a ha m hm s r hs hr hpointer
  obtain ⟨_, hfold, -⟩ := bind_eq_ok h
  obtain ⟨_, _, hmembers⟩ := exists_step_of_foldlM hfold a (hd.mem_aggregates.mpr ha)
  obtain ⟨_, _, hstep⟩ := exists_step_of_foldlM hmembers m hm
  obtain ⟨_, htarget, -⟩ := bind_eq_ok hstep
  rw [memberTarget?_eq hs hr, if_pos hpointer] at htarget
  obtain ⟨o, ho, -⟩ := bind_eq_ok htarget
  exact exists_resolve?_iff.mp ⟨o, ho⟩

theorem memberTarget?_contains_iff {k : Json} :
    memberTarget? d aliases m = .ok (some (k, .contains)) ↔
      ∃ s r, m.type.spelling = .ok s ∧ d.resolve aliases s = .ok r ∧ r.isPointer = false ∧
        targetKey? r = some k := by
  constructor
  · intro h
    obtain ⟨s, hs, hrest⟩ := bind_eq_ok h
    obtain ⟨o, ho, hrest⟩ := bind_eq_ok hrest
    cases o with
    | none => cases hrest
    | some r =>
      have hr := resolve?_eq_some_iff.mp ho
      rw [memberTarget?_eq hs hr] at h
      split at h
      · obtain ⟨o', -, h⟩ := bind_eq_ok h
        obtain ⟨k', -, hk'⟩ := Option.map_eq_some_iff.mp (Except.ok.inj h)
        cases hk'
      · rename_i hpointer
        obtain ⟨k', hk, hk'⟩ := Option.map_eq_some_iff.mp (Except.ok.inj h)
        obtain rfl := (Prod.mk.inj hk').1
        exact ⟨s, r, hs, hr, Bool.eq_false_iff.mpr hpointer, hk⟩
  · rintro ⟨s, r, hs, hr, hpointer, hk⟩
    rw [memberTarget?_eq hs hr, hpointer, hk]
    rfl

theorem grows_linkMembers {keys : List Json} {g' : DepGraph} (hkey : keyOf a ∈ keys)
    (hg : g.IsWired) (hkeys : g.nodes.keys = keys) (h : linkMembers d aliases g a = .ok g') :
    Grows g g' fun e => ∃ m ∈ a.members, ∃ k kind,
      memberTarget? d aliases m = .ok (some (k, kind)) ∧ k ∈ keys ∧
        e = ⟨keyOf a, k, kind, m.name, m.line⟩ := by
  refine Grows.foldlM (fun m hm g g' hg hkeys h => ?_) hg hkeys h
  obtain ⟨o, ho, h⟩ := bind_eq_ok h
  rw [ho]
  match o with
  | none =>
    cases h
    exact .refl hg fun e ⟨_, _, h, _⟩ => by cases h
  | some (target, kind) =>
    dsimp only at h
    split at h
    · rename_i hcontains
      cases h
      have htarget := hg.contains_iff.mp hcontains
      have hgrown := Grows.link
        (e := ⟨taggedKey a.kind a.name, target, kind, m.name, m.line⟩) hg (hkeys ▸ hkey) htarget
      refine ⟨hgrown.wired, hgrown.keys, fun e => ?_⟩
      rw [hgrown.mem_edges]
      refine or_congr_right ⟨fun he => ⟨target, kind, rfl, hkeys ▸ htarget, he⟩, ?_⟩
      rintro ⟨_, _, heq, -, rfl⟩
      cases heq
      rfl
    · -- What is no node gets no edge.
      rename_i hcontains
      cases h
      refine .refl hg fun e ⟨_, _, heq, hk, _⟩ => hcontains ?_
      cases heq
      exact hg.contains_iff.mpr (hkeys ▸ hk)

theorem aliasTargetKey?_congr {g' : DepGraph} (hg : g.IsWired) (hg' : g'.IsWired)
    (hkeys : g.nodes.keys = g'.nodes.keys) (s : String) :
    aliasTargetKey? d g s = aliasTargetKey? d g' s := by
  have hcontains (k : Json) : g.contains k = g'.contains k :=
    Bool.eq_iff_iff.mpr (by rw [hg.contains_iff, hg'.contains_iff, hkeys])
  simp only [aliasTargetKey?, hcontains]

theorem contains_of_aliasTargetKey? {k : Json} (hk : aliasTargetKey? d g s = some k) :
    g.contains k := by
  unfold aliasTargetKey? at hk
  dsimp only at hk
  split at hk
  · rename_i hcore
    exact Option.some.inj hk ▸ hcore
  split at hk
  · split at hk
    · rename_i hcore
      exact Option.some.inj hk ▸ hcore
    · cases hk
  · cases hk

def IsAliasEdge (d : Declarations) (g : DepGraph) (t : AliasDecl) (e : DepEdge) : Prop :=
  t.isFunctionPointer = .ok false ∧ ∃ s k, t.spelling = .ok s ∧ aliasTargetKey? d g s = some k ∧
    e = ⟨t.name, k, .aliases, .str "", t.line⟩

theorem grows_linkAlias {t : AliasDecl} {g' : DepGraph} (hkey : t.name ∈ g.nodes.keys)
    (hg : g.IsWired) (h : linkAlias d g t = .ok g') : Grows g g' (IsAliasEdge d g t) := by
  obtain ⟨isPointer, hpointer, h⟩ := bind_eq_ok h
  cases isPointer with
  | true =>
    cases h
    refine .refl hg fun e he => ?_
    cases hpointer.symm.trans he.1
  | false =>
    rw [if_neg Bool.false_ne_true] at h
    obtain ⟨s, hs, h⟩ := bind_eq_ok h
    split at h
    · rename_i k hk
      cases h
      have hgrown := Grows.link (e := ⟨t.name, k, .aliases, .str "", t.line⟩) hg hkey
        (hg.contains_iff.mp (contains_of_aliasTargetKey? hk))
      refine ⟨hgrown.wired, hgrown.keys, fun e => ?_⟩
      rw [hgrown.mem_edges]
      refine or_congr_right ⟨fun he => ⟨hpointer, s, k, hs, hk, he⟩, ?_⟩
      rintro ⟨-, s', k', hs', hk', rfl⟩
      cases hs.symm.trans hs'
      cases hk.symm.trans hk'
      rfl
    · rename_i hk
      cases h
      refine .refl hg ?_
      rintro e ⟨-, s', k', hs', hk', -⟩
      cases hs.symm.trans hs'
      cases hk.symm.trans hk'

/-- The graph of the types of a unit.  Its edges are those of the members and of the aliases. -/
structure IsTypeGraph (d : Declarations) (aliases : Option AliasTable) (g : DepGraph) : Prop where
  wired : g.IsWired
  keyOf_mem : ∀ a ∈ d.allAggregates, keyOf a ∈ g.nodes.keys
  enumKey_mem : ∀ e ∈ d.enums, taggedKey .enum e.name ∈ g.nodes.keys
  mem_edges : ∀ e, e ∈ g.edges ↔ (∃ a ∈ d.allAggregates, ∃ m ∈ a.members, ∃ k kind,
      memberTarget? d aliases m = .ok (some (k, kind)) ∧ k ∈ g.nodes.keys ∧
        e = ⟨keyOf a, k, kind, m.name, m.line⟩) ∨ ∃ t ∈ d.typedefs, IsAliasEdge d g t e

theorem isTypeGraph_of_ofTypes (hd : d.IsTyped) (h : ofTypes d aliases = .ok g) :
    d.IsTypeGraph aliases g := by
  have hnodes := hasNodes_typeNodes hd
  have hagg : ∀ a ∈ d.aggregates, keyOf a ∈ (typeNodes d).nodes.keys := fun a ha =>
    hnodes.mem _ (mem_append_left _ (mem_append_left _ (mem_map_of_mem ha)))
  have halias : ∀ t ∈ d.typedefs, t.name ∈ (typeNodes d).nodes.keys := fun t ht =>
    hnodes.mem _ (mem_append_right _ (mem_map_of_mem ht))
  obtain ⟨g1, hmembers, haliases⟩ := bind_eq_ok h
  have hgrown := Grows.foldlM (fun a ha g g' hg hkeys h => grows_linkMembers (hagg a ha) hg hkeys h)
    hnodes.wired rfl hmembers
  have hgrown' : Grows g1 g fun e => ∃ t ∈ d.typedefs, IsAliasEdge d (typeNodes d) t e := by
    refine Grows.foldlM (fun t ht g g' hg hkeys h => ?_) hgrown.wired hgrown.keys haliases
    have hgrown := grows_linkAlias (hkeys ▸ halias t ht) hg h
    refine ⟨hgrown.wired, hgrown.keys, fun e => ?_⟩
    rw [hgrown.mem_edges]
    simp only [IsAliasEdge, aliasTargetKey?_congr hg hnodes.wired hkeys]
  have hkeys := hgrown'.keys.trans hgrown.keys
  refine ⟨hgrown'.wired, fun a ha => ?_, fun e he => ?_, fun e => ?_⟩
  · rw [hkeys]
    exact hagg a (hd.mem_aggregates.mpr ha)
  · rw [hkeys]
    exact hnodes.mem _ (mem_append_left _ (mem_append_right _ (mem_map_of_mem he)))
  · rw [hgrown'.mem_edges, hgrown.mem_edges, hnodes.edges, hkeys, or_iff_right not_mem_nil]
    simp only [hd.mem_aggregates, IsAliasEdge,
      aliasTargetKey?_congr hgrown'.wired hnodes.wired hkeys]

theorem exists_ofTypes (hd : d.IsTyped) (hmembers : ∀ a ∈ d.allAggregates, ∀ m ∈ a.members,
    ∃ o, memberTarget? d aliases m = .ok o) : ∃ g, ofTypes d aliases = .ok g := by
  obtain ⟨g, hg⟩ : ∃ g, d.aggregates.foldlM (linkMembers d aliases) (typeNodes d) = .ok g :=
    exists_foldlM_eq_ok fun a ha g => exists_foldlM_eq_ok fun m hm g => by
      obtain ⟨o, ho⟩ := hmembers a (mem_allAggregates_of_mem ha) m hm
      rw [ho, ok_bind]
      split
      · split <;> exact ⟨_, rfl⟩
      · exact ⟨_, rfl⟩
  obtain ⟨g', hg'⟩ : ∃ g', d.typedefs.foldlM (linkAlias d) g = .ok g' :=
    exists_foldlM_eq_ok fun t ht g => by
      obtain ⟨s, isPointer, hs, hpointer⟩ :=
        exists_isFunctionPointer (hd.entities _ (mem_of_mem_typedefs ht))
      unfold linkAlias
      rw [hpointer, hs, ok_bind]
      split
      · exact ⟨_, rfl⟩
      · rw [ok_bind]
        split <;> exact ⟨_, rfl⟩
  exact ⟨g', by rw [ofTypes, hg, ok_bind, hg']⟩

theorem IsTypeGraph.links_iff (hg : d.IsTypeGraph aliases g) (k k' : Json) :
    g.Links (some [.contains]) k k' ↔ ∃ a ∈ d.allAggregates, k = keyOf a ∧ ∃ m ∈ a.members,
      k' ∈ g.nodes.keys ∧ memberTarget? d aliases m = .ok (some (k', .contains)) := by
  constructor
  · rintro ⟨e, he, hkind, rfl, rfl⟩
    rcases (hg.mem_edges e).mp he with
      ⟨a, ha, m, hm, k, kind, htarget, hk, rfl⟩ | ⟨t, -, -, _, _, -, -, rfl⟩
    · cases kind with
      | contains => exact ⟨a, ha, rfl, m, hm, hk, htarget⟩
      | pointsTo | aliases | includes => cases hkind
    · cases hkind
  · rintro ⟨a, ha, rfl, m, hm, hk, htarget⟩
    exact ⟨_, (hg.mem_edges _).mpr (.inl ⟨a, ha, m, hm, k', .contains, htarget, hk, rfl⟩), rfl, rfl,
      rfl⟩

/-! ## Cycles of containment -/

theorem keyOf_inj (hd : d.IsTyped) (hunique : d.HasUniqueNames) (ha : a ∈ d.allAggregates)
    (hb : b ∈ d.allAggregates) (h : keyOf a = keyOf b) : a = b := by
  have htext {a : AggregateDecl} (ha : a ∈ d.allAggregates) : a.name.IsText :=
    exists_str_of_isText (isText_name hd ha)
  have hname : a.name = b.name :=
    Digraph.plain_injOn_isText (htext ha) (htext hb) (taggedKey_inj h).2
  exact hunique.eq_of_name ha hb hname

theorem keyOf_ne_enum (a : AggregateDecl) (n : Json) : keyOf a ≠ taggedKey .enum n := by
  intro h
  have hkind := (taggedKey_inj h).1
  unfold AggregateDecl.kind at hkind
  split at hkind <;> cases hkind

namespace IsTypeGraph

variable (hg : d.IsTypeGraph aliases g)
include hg

theorem links_of_contains (ha : a ∈ d.allAggregates) (h : d.Contains aliases a b) :
    g.Links (some [.contains]) (keyOf a) (keyOf b) := by
  have hb := h.mem
  obtain ⟨m, hm, s, r, hs, hr, hpointer, hagg⟩ := h
  refine (hg.links_iff _ _).mpr ⟨a, ha, rfl, m, hm, hg.keyOf_mem b hb, ?_⟩
  refine memberTarget?_contains_iff.mpr ⟨s, r, hs, hr, hpointer, ?_⟩
  unfold targetKey?
  rw [hagg]
  rfl

theorem not_links_enum (n k : Json) : ¬g.Links (some [.contains]) (taggedKey .enum n) k := by
  intro h
  obtain ⟨a, -, hkey, -⟩ := (hg.links_iff _ _).mp h
  exact keyOf_ne_enum a n hkey.symm

theorem reflTransGen_links (ha : a ∈ d.allAggregates) (h : ReflTransGen (d.Contains aliases) a b) :
    b ∈ d.allAggregates ∧
      ReflTransGen (g.Links (some [.contains])) (keyOf a) (keyOf b) := by
  induction h with
  | refl => exact ⟨ha, .refl⟩
  | tail _ hbc ih => exact ⟨hbc.mem, ih.2.tail (hg.links_of_contains ih.1 hbc)⟩

variable (hd : d.IsTyped) (hunique : d.HasUniqueNames)
include hd hunique

theorem contains_of_links (ha : a ∈ d.allAggregates) {k : Json}
    (h : g.Links (some [.contains]) (keyOf a) k) :
    (∃ b, d.Contains aliases a b ∧ k = keyOf b) ∨ ∃ n, k = taggedKey .enum n := by
  obtain ⟨a', ha', hkey, m, hm, -, htarget⟩ := (hg.links_iff _ _).mp h
  obtain rfl := keyOf_inj hd hunique ha ha' hkey
  obtain ⟨s, r, hs, hr, hpointer, hk⟩ := memberTarget?_contains_iff.mp htarget
  unfold targetKey? at hk
  split at hk
  · rename_i b hb
    exact .inl ⟨b, ⟨m, hm, s, r, hs, hr, hpointer, hb⟩, (Option.some.inj hk).symm⟩
  · rename_i e _ _
    exact .inr ⟨e.name, (Option.some.inj hk).symm⟩
  · cases hk

theorem reflTransGen_contains (ha : a ∈ d.allAggregates) {k : Json}
    (h : ReflTransGen (g.Links (some [.contains])) (keyOf a) k) :
    (∃ b ∈ d.allAggregates, k = keyOf b ∧ ReflTransGen (d.Contains aliases) a b) ∨
      ∃ n, k = taggedKey .enum n := by
  induction h with
  | refl => exact .inl ⟨a, ha, rfl, .refl⟩
  | tail _ hlink ih =>
    rcases ih with ⟨b, hb, rfl, hab⟩ | ⟨n, rfl⟩
    · rcases hg.contains_of_links hd hunique hb hlink with ⟨c, hbc, rfl⟩ | henum
      · exact .inl ⟨c, hbc.mem, rfl, hab.tail hbc⟩
      · exact .inr henum
    · -- A path ends where it comes to an enumeration.
      exact absurd hlink (hg.not_links_enum n _)

theorem transGen_links_iff (ha : a ∈ d.allAggregates) :
    TransGen (g.Links (some [.contains])) (keyOf a) (keyOf a) ↔
      TransGen (d.Contains aliases) a a := by
  rw [TransGen.head'_iff, TransGen.head'_iff]
  constructor
  · rintro ⟨k, hlink, hback⟩
    rcases hg.contains_of_links hd hunique ha hlink with ⟨b, hab, rfl⟩ | ⟨n, rfl⟩
    · refine ⟨b, hab, ?_⟩
      rcases hg.reflTransGen_contains hd hunique hab.mem hback with ⟨c, hc, hkey, hbc⟩ | ⟨n, hkey⟩
      · rwa [keyOf_inj hd hunique ha hc hkey]
      · exact absurd hkey (keyOf_ne_enum a n)
    · rcases ReflTransGen.cases_head hback with hkey | ⟨k', hlink', -⟩
      · exact absurd hkey.symm (keyOf_ne_enum a n)
      · exact absurd hlink' (hg.not_links_enum n k')
  · rintro ⟨b, hab, hba⟩
    exact ⟨keyOf b, hg.links_of_contains ha hab, (hg.reflTransGen_links hab.mem hba).2⟩

theorem exists_of_transGen_links {k : Json} (h : TransGen (g.Links (some [.contains])) k k) :
    ∃ a ∈ d.allAggregates, k = keyOf a ∧ TransGen (d.Contains aliases) a a := by
  obtain ⟨k', hlink, -⟩ := TransGen.head'_iff.mp h
  obtain ⟨a, ha, rfl, -⟩ := (hg.links_iff _ _).mp hlink
  exact ⟨a, ha, rfl, (hg.transGen_links_iff hd hunique ha).mp h⟩

theorem reaches_cycle_iff (ha : a ∈ d.allAggregates) :
    (∃ k, ReflTransGen (g.Links (some [.contains])) (keyOf a) k ∧
      TransGen (g.Links (some [.contains])) k k) ↔ d.Loops aliases a := by
  constructor
  · rintro ⟨k, hreach, hcycle⟩
    obtain ⟨b, hb, rfl, hcontains⟩ := hg.exists_of_transGen_links hd hunique hcycle
    rcases hg.reflTransGen_contains hd hunique ha hreach with ⟨c, hc, hkey, hac⟩ | ⟨n, hkey⟩
    · obtain rfl := keyOf_inj hd hunique hb hc hkey
      exact ⟨b, hac, hcontains⟩
    · exact absurd hkey (keyOf_ne_enum b n)
  · rintro ⟨b, hab, hcontains⟩
    obtain ⟨hb, hreach⟩ := hg.reflTransGen_links ha hab
    exact ⟨keyOf b, hreach, (hg.transGen_links_iff hd hunique hb).mpr hcontains⟩

theorem containmentCycles_ne_nil_iff :
    g.containmentCycles ≠ [] ↔ ∃ a ∈ d.allAggregates, d.Loops aliases a := by
  have hapart : (g.digraph (some [.contains])).IsApart := hg.wired.isApart
  have htext : ∀ k ∈ (g.digraph (some [.contains])).mentioned, k.IsText := fun k hk =>
    hg.wired.isText k (hg.wired.mem_keys_of_mem_mentioned k hk)
  have hshown : ∀ k ∈ (g.digraph (some [.contains])).mentioned,
      ∀ k' ∈ (g.digraph (some [.contains])).mentioned, k.plain = k'.plain → k = k' :=
    fun k hk k' hk' => Digraph.plain_injOn_isText (htext k hk) (htext k' hk')
  obtain ⟨-, hcycles⟩ := hapart.cycles hshown
  have hrelation : (fun k k' => k' ∈ (g.digraph (some [.contains])).succ k)
      = g.Links (some [.contains]) := by
    funext k k'
    exact propext hg.wired.mem_succ_iff
  -- The cycles are only shown by other names.
  have hmap : g.containmentCycles ≠ [] ↔ (g.digraph (some [.contains])).cycles plain ≠ [] := by
    unfold containmentCycles DepGraph.cycles
    dsimp only
    rw [hg.wired.known_discovered]
    exact map_eq_nil_iff.not
  rw [hmap, ne_eq, hcycles.eq_nil_iff]
  push Not
  constructor
  · rintro ⟨k, -, hcycle⟩
    unfold Digraph.OnCycle at hcycle
    rw [hrelation] at hcycle
    obtain ⟨a, ha, -, hcontains⟩ := hg.exists_of_transGen_links hd hunique hcycle
    exact ⟨a, ha, a, .refl, hcontains⟩
  · rintro ⟨a, ha, b, hab, hcontains⟩
    obtain ⟨hb, -⟩ := hg.reflTransGen_links ha hab
    refine ⟨keyOf b, hg.wired.reachedFrom_iff.mpr (hg.keyOf_mem b hb), ?_⟩
    unfold Digraph.OnCycle
    rw [hrelation]
    exact (hg.transGen_links_iff hd hunique hb).mpr hcontains

end IsTypeGraph

/-- **Both checks for containment agree.**  In a unit in which the names of structs, unions and
enumerations differ and the types of all members are known, the graph of the types is found exactly
if the type behind each pointer can be read.  In that graph there are cycles of containment exactly
if an aggregate has no layout, and an aggregate has none exactly if a cycle of containment can be
reached from its key. -/
theorem layout_fails_iff_reaches_cycle (hd : d.IsFresh) (htyped : d.IsTyped)
    (hunique : d.HasUniqueNames) (hmembers : d.HasKnownMembers aliases) :
    ((∃ g, ofTypes d aliases = .ok g) ↔ d.ReadsPointees aliases) ∧
    ∀ g, ofTypes d aliases = .ok g →
      ((∃ a ∈ d.allAggregates, ∃ fault,
          (d.runLaying (d.layout aliases a)).1 = .error (.model fault)) ↔
        g.containmentCycles ≠ []) ∧
      ∀ a ∈ d.allAggregates,
        ((∃ fault, (d.runLaying (d.layout aliases a)).1 = .error (.model fault)) ↔
          ∃ k, Relation.ReflTransGen (g.Links (some [.contains])) (taggedKey a.kind a.name) k ∧
            Relation.TransGen (g.Links (some [.contains])) k k) := by
  have hfails (a : AggregateDecl) (ha : a ∈ d.allAggregates) :
      (∃ fault, (d.runLaying (d.layout aliases a)).1 = .error (.model fault)) ↔
        d.Loops aliases a :=
    layout_fails_iff_loops hd.1 hd.2 htyped hunique hmembers ha
  refine ⟨⟨fun ⟨g, hg⟩ => readsPointees_of_ofTypes htyped.toInStep hg, fun hpointees => ?_⟩,
    fun g hg => ?_⟩
  · exact exists_ofTypes htyped fun a ha m hm => exists_memberTarget? hmembers hpointees ha hm
  · have hgraph := isTypeGraph_of_ofTypes htyped hg
    refine ⟨?_, fun a ha => (hfails a ha).trans (hgraph.reaches_cycle_iff htyped hunique ha).symm⟩
    rw [hgraph.containmentCycles_ne_nil_iff htyped hunique]
    exact exists_congr fun a => and_congr_right fun ha => hfails a ha

/-! ### Knots and beads -/

def aggregateOf (isUnion : Bool) (name : String) (members : List (String × String)) :
    AggregateDecl where
  isUnion := isUnion
  name := .str name
  members := members.map fun (m, type) =>
    ⟨.str m, .str type, .null, .null, .null, .null, .int 0⟩
  file := .str "t.c"
  line := .int 1
  isPacked := .bool false

theorem isTyped_aggregateOf (isUnion : Bool) (name : String) (members : List (String × String)) :
    (aggregateOf isUnion name members).IsTyped := by
  refine ⟨rfl, fun m hm => ?_⟩
  obtain ⟨m, -, rfl⟩ := mem_map.mp hm
  exact ⟨rfl, rfl, .inl rfl, .inl rfl, .inl rfl, .inl rfl⟩

def isFault {α : Type} : Except Error α → Bool
  | .error (.model _) => true
  | _ => false

theorem exists_fault_of_isFault {α : Type} {x : Except Error α} (h : isFault x) :
    ∃ fault, x = .error (.model fault) := by
  unfold isFault at h
  split at h
  · exact ⟨_, rfl⟩
  · cases h

def colour : EnumDecl := ⟨.str "colour", [], .str "t.c", .int 1, .str "int"⟩

def knot : AggregateDecl :=
  aggregateOf false "knot" [("bead", "union bead"), ("shade", "enum colour")]

def bead : AggregateDecl := aggregateOf true "bead" [("weight", "int"), ("knots", "strand")]

def box : AggregateDecl := aggregateOf false "box" [("inside", "struct knot")]

def label : AggregateDecl :=
  aggregateOf false "label" [("on", "struct knot *"), ("shade", "enum colour")]

/-- A knot and a bead contain each other, the second through an alias for an array.  A box contains
a knot, and a label only points at one. -/
def knots : Declarations := (empty .lp64).addAll
  [.typedef ⟨.str "strand", .str "struct knot[2]", .str "t.c", .int 1⟩, .enum colour,
    .aggregate knot, .aggregate bead, .aggregate box, .aggregate label]

theorem isFresh_knots : knots.IsFresh := ⟨(Reached.empty .lp64).addAll _, rfl⟩

theorem isTyped_knots : knots.IsTyped := by
  have hentities : knots.entities =
    [.typedef ⟨.str "strand", .str "struct knot[2]", .str "t.c", .int 1⟩, .enum colour,
      .aggregate knot, .aggregate bead, .aggregate box, .aggregate label] := by rfl
  refine ⟨isFresh_knots.1.kept.toInStep, ⟨rfl, rfl, rfl, rfl⟩, ?_, nofun⟩
  simp only [hentities, forall_mem_cons]
  exact ⟨⟨rfl, rfl⟩, ⟨rfl, rfl, nofun⟩, isTyped_aggregateOf _ _ _, isTyped_aggregateOf _ _ _,
    isTyped_aggregateOf _ _ _, isTyped_aggregateOf _ _ _, nofun⟩

theorem hasUniqueNames_knots : knots.HasUniqueNames := by
  have haggregates : knots.allAggregates = [knot, bead, box, label] := by rfl
  have henums : knots.enums = [colour] := by rfl
  simp [HasUniqueNames, haggregates, henums, knot, bead, box, label, aggregateOf, colour]

/-- The box has no layout and leads to the cycle, the label has one and does not. -/
theorem layout_fails_iff_reaches_cycle_knots :
    knots.IsFresh ∧ knots.IsTyped ∧ knots.HasUniqueNames ∧ knots.HasKnownMembers none ∧
    knots.ReadsPointees none ∧
    ∃ g, ofTypes knots none = .ok g ∧ g.containmentCycles ≠ [] ∧
      (∃ k, Relation.ReflTransGen (g.Links (some [.contains])) (.str "struct box") k ∧
        Relation.TransGen (g.Links (some [.contains])) k k) ∧
      ¬∃ k, Relation.ReflTransGen (g.Links (some [.contains])) (.str "struct label") k ∧
        Relation.TransGen (g.Links (some [.contains])) k k := by
  have hknown : knots.HasKnownMembers none := by decide +kernel
  have hbox : box ∈ knots.allAggregates := .tail _ (.tail _ (.head _))
  have hlabel : label ∈ knots.allAggregates := .tail _ (.tail _ (.tail _ (.head _)))
  have hgraph : (ofTypes knots none).toOption.isSome := by decide +kernel
  have hboxFails : isFault (knots.runLaying (knots.layout none box)).1 := by
    decide +kernel
  have hlabelFails : isFault (knots.runLaying (knots.layout none label)).1 = false := by
    decide +kernel
  obtain ⟨g, hg⟩ := Option.isSome_iff_exists.mp hgraph
  have hg := eq_ok_of_toOption hg
  obtain ⟨hreads, hagree⟩ :=
    layout_fails_iff_reaches_cycle isFresh_knots isTyped_knots hasUniqueNames_knots hknown
  obtain ⟨hcycles, hreach⟩ := hagree g hg
  have hreachBox := hreach box hbox
  have hreachLabel := hreach label hlabel
  rw [show taggedKey box.kind box.name = .str "struct box" by cbv] at hreachBox
  rw [show taggedKey label.kind label.name = .str "struct label" by cbv] at hreachLabel
  have hfault := exists_fault_of_isFault hboxFails
  refine ⟨isFresh_knots, isTyped_knots, hasUniqueNames_knots, hknown, hreads.mp ⟨g, hg⟩, g, hg,
    hcycles.mp ⟨box, hbox, hfault⟩, hreachBox.mp hfault, fun h => ?_⟩
  obtain ⟨fault, hfault⟩ := hreachLabel.mpr h
  rw [hfault] at hlabelFails
  cases hlabelFails

/-! ### A pointer to an array of unreadable extent -/

def loop : AggregateDecl := aggregateOf false "A" [("self", "struct A")]

def unreadable : Declarations := (empty .lp64).addAll
  [.typedef ⟨.str "T", .str "int[²]", .str "t.c", .int 1⟩,
    .aggregate (aggregateOf false "B" [("p", "T *")]), .aggregate loop]

/-- The types of all members are known and the layout of the first struct fails, but there is no
graph in which its cycle could be found, as the extent behind the pointer of the other is a digit
that is no decimal one. -/
theorem ofTypes_fails_behind_pointer :
    unreadable.IsFresh ∧ unreadable.IsTyped ∧ unreadable.HasUniqueNames ∧
      unreadable.HasKnownMembers none ∧ loop ∈ unreadable.allAggregates ∧
      (∃ fault, (unreadable.runLaying (unreadable.layout none loop)).1 = .error (.model fault)) ∧
      ¬∃ g, ofTypes unreadable none = .ok g := by
  have hfresh : unreadable.IsFresh := ⟨(Reached.empty .lp64).addAll _, rfl⟩
  have hknown : unreadable.HasKnownMembers none := by decide +kernel
  have hloop : loop ∈ unreadable.allAggregates := .tail _ (.head _)
  have hfault : isFault (unreadable.runLaying (unreadable.layout none loop)).1 := by
    decide +kernel
  have hnone : (ofTypes unreadable none).toOption.isNone := by decide +kernel
  refine ⟨hfresh, ?_, ?_, hknown, hloop, exists_fault_of_isFault hfault, ?_⟩
  · have hentities : unreadable.entities = [.typedef ⟨.str "T", .str "int[²]", .str "t.c", .int 1⟩,
      .aggregate (aggregateOf false "B" [("p", "T *")]), .aggregate loop] := by rfl
    refine ⟨hfresh.1.kept.toInStep, ⟨rfl, rfl, rfl, rfl⟩, ?_, fun l hl => absurd hl not_mem_nil⟩
    simp only [hentities, forall_mem_cons]
    exact ⟨⟨rfl, rfl⟩, isTyped_aggregateOf _ _ _, isTyped_aggregateOf _ _ _,
      fun _ h => absurd h not_mem_nil⟩
  · have haggregates : unreadable.allAggregates =
        [aggregateOf false "B" [("p", "T *")], loop] := by rfl
    have henums : unreadable.enums = [] := by rfl
    simp [HasUniqueNames, haggregates, henums, loop, aggregateOf]
  · rintro ⟨g, hg⟩
    rw [hg] at hnone
    cases hnone

end Declarations

end Branchwise
