import Branchwise.Proofs.CType.Canonical
import Branchwise.Proofs.Depends.Types

/-!
# What aliases and pointers depend on

An alias depends on what is left of its type without stars and array suffixes, and an aggregate on
the types that its members point at.  An edge is missing where a star or a suffix is no word of its
own, and where there is a pointer behind a pointer.
-/

namespace Branchwise

open List Text

/-! ## Words of a canonical spelling -/

namespace Text

open Guard (Stops stops_cons)

variable {keep : Char → Bool} {c : Char} {w rest : List Char}

theorem runs_cons (hc : keep c = false) : runs keep (c :: rest) = runs keep rest := by
  simp only [runs, foldr_cons, hc, Bool.false_eq_true, if_false, List.isEmpty_nil, if_true]

theorem runs_append (hw : ∀ c ∈ w, keep c) (hne : w ≠ []) (hrest : Stops keep rest) :
    runs keep (w ++ rest) = w :: runs keep rest := by
  unfold runs
  set step := fun c (acc : List Char × List (List Char)) =>
    if keep c then (c :: acc.1, acc.2) else ([], if acc.1.isEmpty then acc.2 else acc.1 :: acc.2)
  have hempty : (rest.foldr step ([], [])).1 = [] := by
    cases rest with
    | nil => rfl
    | cons c rest => simp [step, hrest c rest rfl]
  have hfold : (w ++ rest).foldr step ([], []) = (w, (rest.foldr step ([], [])).2) := by
    clear hne
    induction w with
    | nil => exact Prod.ext hempty rfl
    | cons c w ih =>
      rw [forall_mem_cons] at hw
      rw [cons_append, foldr_cons, ih hw.2]
      simp [step, hw.1]
  simp [hfold, hempty, hne]

theorem runs_intercalate (hblank : keep ' ' = false) {ws : List (List Char)}
    (hws : ∀ w ∈ ws, (∀ c ∈ w, keep c) ∧ w ≠ []) (hrest : Stops keep rest) :
    runs keep ([' '].intercalate ws ++ rest) = ws ++ runs keep rest := by
  induction ws with
  | nil => rfl
  | cons w ws ih =>
    rw [forall_mem_cons] at hws
    cases ws with
    | nil => rw [intercalate_singleton, runs_append hws.1.1 hws.1.2 hrest, singleton_append]
    | cons w' ws =>
      rw [intercalate_cons_cons, append_assoc, append_assoc, singleton_append,
        runs_append hws.1.1 hws.1.2 (stops_cons hblank), runs_cons hblank, ih hws.2]
      rfl

end Text

namespace Spelling

theorem words_normalize {s : String} (hstars : starsOf (pieces s) ≤ 1)
    (harrays : arraysOf (pieces s) = []) :
    (words (normalize s)).filter (fun w => w ≠ "*" && w.toList.head? ≠ some '[')
      = wordsOf (pieces s) := by
  have hword : ∀ w ∈ wordsOf (pieces s), Guard.IsIdentifier w.toList := fun w hw =>
    isProper_of_mem_pieces (mem_wordsOf.mp hw)
  have hkept : ∀ w ∈ (wordsOf (pieces s)).map String.toList,
      (∀ c ∈ w, (!isBlank c)) ∧ w ≠ [] := by
    intro w hw
    obtain ⟨v, hv, rfl⟩ := mem_map.mp hw
    obtain ⟨c, tail, heq, hc, htail⟩ := hword v hv
    rw [heq]
    refine ⟨forall_mem_cons.mpr ⟨?_, fun c hc => ?_⟩, cons_ne_nil c tail⟩
    · simp [isNameStart, isBlank, isWhiteSpace] at hc ⊢
      omega
    · have hc := htail c hc
      simp [isNameChar, isNameStart, isBlank, isWhiteSpace] at hc ⊢
      omega
  have hfilter : (wordsOf (pieces s)).filter (fun w => w ≠ "*" && w.toList.head? ≠ some '[')
      = wordsOf (pieces s) := by
    refine filter_eq_self.mpr fun w hw => ?_
    obtain ⟨c, tail, heq, hc, -⟩ := hword w hw
    have hstar : w ≠ "*" := by
      rintro rfl
      cases heq
      exact absurd hc (by decide)
    have hbracket : c ≠ '[' := by
      rintro rfl
      exact absurd hc (by decide)
    simp [hstar, heq, hbracket]
  have hback : ((wordsOf (pieces s)).map String.toList).map String.ofList = wordsOf (pieces s) := by
    simp [map_map, Function.comp_def]
  have hsplit {tail : List Char} (htail : Guard.Stops (fun c => !isBlank c) tail) :
      (runs (fun c => !isBlank c) ([' '].intercalate ((wordsOf (pieces s)).map String.toList)
        ++ tail)).map String.ofList
        = wordsOf (pieces s) ++ (runs (fun c => !isBlank c) tail).map String.ofList := by
    rw [runs_intercalate rfl hkept htail, map_append, hback]
  have hstar : Guard.Stops (fun c => !isBlank c) [' ', '*'] := Guard.stops_cons rfl
  rw [words, toList_normalize, harrays, SpellingPiece.spell]
  -- A single star is a word of its own, which is taken out.
  rcases Nat.le_one_iff_eq_zero_or_eq_one.mp hstars with hstars | hstars
  · rw [hstars]
    refine (congrArg (filter _) (hsplit .nil)).trans ?_
    rw [filter_append, hfilter]
    exact append_nil _
  · rw [hstars]
    refine (congrArg (filter _) (hsplit hstar)).trans ?_
    rw [filter_append, hfilter]
    exact append_nil _

end Spelling

namespace Declarations

open DepGraph Spelling

variable {d : Declarations} {aliases : Option AliasTable} {g : DepGraph}

/-- **An alias depends on the type it is for.**  If at most one star and no array suffix is to be
taken off the type of an alias that is for no function, and what is left is a key, there is an edge
to it, so that it is listed before the alias unless it leads back. -/
theorem alias_edge_of_key (hd : d.IsTyped) (hg : ofTypes d aliases = .ok g) {t : AliasDecl}
    (ht : t ∈ d.typedefs) (hpointer : t.isFunctionPointer = .ok false) {s : String}
    (hs : t.spelling = .ok s) (hstars : starsOf (pieces s) ≤ 1) (harrays : arraysOf (pieces s) = [])
    (hkey : .str (join " " (wordsOf (pieces s))) ∈ g.nodes.keys) :
    ⟨t.name, .str (join " " (wordsOf (pieces s))), .aliases, .str "", t.line⟩ ∈ g.edges ∧
    ∃ ks, g.order = .ok ks ∧
      (¬Relation.ReflTransGen g.DependsOn (.str (join " " (wordsOf (pieces s)))) t.name →
        [.str (join " " (wordsOf (pieces s))), t.name].Sublist ks) := by
  have hgraph := isTypeGraph_of_ofTypes hd hg
  have htarget : aliasTargetKey? d g s = some (.str (join " " (wordsOf (pieces s)))) := by
    unfold aliasTargetKey?
    simp only [words_normalize hstars harrays, hgraph.wired.contains_iff.mpr hkey, if_true]
  have hedge : ⟨t.name, .str (join " " (wordsOf (pieces s))), .aliases, .str "", t.line⟩
      ∈ g.edges := (hgraph.mem_edges _).mpr (.inr ⟨t, ht, hpointer, s, _, hs, htarget, rfl⟩)
  obtain ⟨ks, hks, horder, hmem⟩ := hgraph.wired.exists_order
  refine ⟨hedge, ks, hks, fun hback => horder.first _ ?_ _ ⟨_, hedge, rfl, rfl⟩ hback⟩
  exact (hmem _).mpr (hgraph.wired.contains_iff.mpr (hgraph.wired.source_mem _ hedge))

/-! ### Cells -/

def cell : AggregateDecl := aggregateOf false "cell" [("next", "ref"), ("far", "ref *")]

def ref : AliasDecl := ⟨.str "ref", .str "const struct cell *", .str "t.c", .int 1⟩

def grid : AliasDecl := ⟨.str "grid", .str "struct cell[4]", .str "t.c", .int 1⟩

/-- A cell points at another one through an alias, and at such a pointer; a grid is an array. -/
def cells : Declarations := (empty .lp64).addAll [.typedef ref, .typedef grid, .aggregate cell]

theorem isTyped_cells : cells.IsTyped := by
  have hreached : cells.Reached := (Reached.empty .lp64).addAll _
  have hentities : cells.entities = [.typedef ref, .typedef grid, .aggregate cell] := by rfl
  refine ⟨hreached.kept.toInStep, ⟨rfl, rfl, rfl, rfl⟩, ?_, fun _ h => absurd h not_mem_nil⟩
  simp only [hentities, forall_mem_cons]
  exact ⟨⟨rfl, rfl⟩, ⟨rfl, rfl⟩, isTyped_aggregateOf _ _ _, fun _ h => absurd h not_mem_nil⟩

theorem exists_ofTypes_cells : ∃ g, ofTypes cells none = .ok g ∧
    g.contains (.str "struct cell") ∧
    (∀ e ∈ g.edges, (e.source == .str "grid") = false) ∧
    ∀ e ∈ g.edges, (e.via == .str "far") = false := by
  have hany : (ofTypes cells none).toOption.any (fun g => g.contains (.str "struct cell") &&
      g.edges.all fun e => !(e.source == .str "grid") && !(e.via == .str "far")) := by
    decide +kernel
  obtain ⟨g, hg, h⟩ := (Option.any_eq_true _ _).mp hany
  simp only [Bool.and_eq_true, all_eq_true, Bool.not_eq_true'] at h
  exact ⟨g, eq_ok_of_toOption hg, h.1, fun e he => (h.2 e he).1, fun e he => (h.2 e he).2⟩

theorem alias_edge_of_key_ref : ∃ g, ofTypes cells none = .ok g ∧
    ⟨.str "ref", .str "struct cell", .aliases, .str "", .int 1⟩ ∈ g.edges := by
  obtain ⟨g, hg, hkey, -⟩ := exists_ofTypes_cells
  have hwords : wordsOf (pieces "const struct cell *") = ["struct", "cell"] := by decide +kernel
  have hgraph := isTypeGraph_of_ofTypes isTyped_cells hg
  have hedge := alias_edge_of_key isTyped_cells hg (t := ref) mem_cons_self
    (eq_ok_of_toOption (by decide +kernel)) rfl (by decide +kernel) (by decide +kernel)
    (by rw [hwords]; exact hgraph.wired.contains_iff.mp hkey)
  rw [hwords] at hedge
  exact ⟨g, hg, hedge.1⟩

/-- No edge leads from the alias for an array, though its elements are a key. -/
theorem array_alias_has_no_edge : ∃ g, ofTypes cells none = .ok g ∧ grid ∈ cells.typedefs ∧
    grid.isFunctionPointer = .ok false ∧ grid.spelling = .ok "struct cell[4]" ∧
    g.contains (.str (join " " (wordsOf (pieces "struct cell[4]")))) = true ∧
    ∀ e ∈ g.edges, (e.source == grid.name) = false := by
  obtain ⟨g, hg, hkey, hgrid, -⟩ := exists_ofTypes_cells
  have hwords : wordsOf (pieces "struct cell[4]") = ["struct", "cell"] := by decide +kernel
  rw [hwords]
  exact ⟨g, hg, .tail _ mem_cons_self, eq_ok_of_toOption (by decide +kernel), rfl, hkey, hgrid⟩

/-! ## Pointers -/

/-- A type leads to an aggregate or an enumeration once all pointers are taken off. -/
inductive PointsAt (d : Declarations) (aliases : Option AliasTable) : String → Json → Prop
  | here {s : String} {r : ResolvedType} {k : Json} (hr : d.resolve aliases s = .ok r)
      (hpointer : r.isPointer = false) (hk : targetKey? r = some k) : PointsAt d aliases s k
  | behind {s : String} {r : ResolvedType} {k : Json} (hr : d.resolve aliases s = .ok r)
      (hpointer : r.isPointer) (h : PointsAt d aliases r.core k) : PointsAt d aliases s k

theorem IsTypeGraph.targetKey_mem (hd : d.InStep) (hg : d.IsTypeGraph aliases g) {s : String}
    {r : ResolvedType} {k : Json} (hr : d.resolve aliases s = .ok r) (hk : targetKey? r = some k) :
    k ∈ g.nodes.keys := by
  have hfound := foundIn_resolve hr
  unfold targetKey? at hk
  split at hk
  · rename_i a ha
    cases hk
    exact hg.keyOf_mem a (mem_of_resolve hr ha)
  · rename_i e _ he
    cases hk
    exact hg.enumKey_mem e (mem_filterMap.mpr ⟨_, hd.mem_ofKind (hfound.enum e he), rfl⟩)
  · cases hk

/-- **A pointer depends on what it points at.**  If what is behind the first pointer of the type of
a member is no pointer and leads to an aggregate or an enumeration, there is an edge to that.  So an
aggregate with such a pointer to itself is among those that mention themselves. -/
theorem pointer_edge_of_pointsAt (hd : d.IsTyped) (hg : ofTypes d aliases = .ok g)
    {a : AggregateDecl} (ha : a ∈ d.allAggregates) {m : MemberDecl} (hm : m ∈ a.members)
    {s : String} (hs : m.type.spelling = .ok s) {r : ResolvedType}
    (hr : d.resolve aliases s = .ok r) (hpointer : r.isPointer = true) {k : Json}
    (hk : d.PointsAt aliases s k)
    (hbehind : ∀ r', d.resolve aliases r.core = .ok r' → r'.isPointer = false) :
    ⟨taggedKey a.kind a.name, k, .pointsTo, m.name, m.line⟩ ∈ g.edges ∧
    (k = taggedKey a.kind a.name →
      ∃ n ∈ g.nodes.values, n.key = taggedKey a.kind a.name ∧ n.name ∈ g.selfReferences) := by
  have hgraph := isTypeGraph_of_ofTypes hd hg
  have hedge : ⟨keyOf a, k, .pointsTo, m.name, m.line⟩ ∈ g.edges := by
    cases hk with
    | here hr' hnot => cases hr.symm.trans hr'; cases hpointer.symm.trans hnot
    | behind hr' _ hk =>
      cases hr.symm.trans hr'
      cases hk with
      | behind hr' hmore => cases hmore.symm.trans (hbehind _ hr')
      | here hr' _ hk =>
        refine (hgraph.mem_edges _).mpr (.inl ⟨a, ha, m, hm, k, .pointsTo, ?_,
          hgraph.targetKey_mem hd.toInStep hr' hk, rfl⟩)
        rw [memberTarget?_eq hs hr, if_pos hpointer, resolve?_eq_some_iff.mpr hr', ok_bind,
          Option.bind_some, hk]
        rfl
  refine ⟨hedge, ?_⟩
  rintro rfl
  obtain ⟨x, hx, hkey⟩ := mem_map.mp (hgraph.wired.source_mem _ hedge)
  have hself : x.2.key = keyOf a := (hgraph.wired.key_eq x hx).trans hkey
  refine ⟨x.2, mem_map_of_mem hx, hself, mem_map_of_mem (mem_filter.mpr ⟨mem_map_of_mem hx, ?_⟩)⟩
  refine any_eq_true.mpr ⟨_, (hgraph.wired.mem_outEdges x hx _).mpr ⟨hedge, hkey.symm⟩, ?_⟩
  dsimp only
  rw [hself]
  have hequal : keyOf a == keyOf a := (Json.isolated_str _ _).1.mpr rfl
  exact Bool.and_eq_true_iff.mpr ⟨hequal, rfl⟩

/-! ### Pointers of cells -/

theorem exists_resolve_cells : ∃ r r' r'', cells.resolve none "struct cell" = .ok r ∧
    r.isPointer = false ∧ targetKey? r = some (.str "struct cell") ∧
    cells.resolve none "ref" = .ok r' ∧ r'.isPointer = true ∧ r'.core = "struct cell" ∧
    cells.resolve none "ref *" = .ok r'' ∧ r''.isPointer = true ∧ r''.core = "ref" := by
  have hcell : (cells.resolve none "struct cell").toOption.any (fun r => !r.isPointer &&
      (targetKey? r).any (· == .str "struct cell")) := by decide +kernel
  have href : (cells.resolve none "ref").toOption.any (fun r => r.isPointer &&
      r.core = "struct cell") := by decide +kernel
  have hfar : (cells.resolve none "ref *").toOption.any (fun r =>
      r.isPointer && r.core = "ref") := by decide +kernel
  obtain ⟨r, hr, h⟩ := (Option.any_eq_true _ _).mp hcell
  obtain ⟨r', hr', h'⟩ := (Option.any_eq_true _ _).mp href
  obtain ⟨r'', hr'', h''⟩ := (Option.any_eq_true _ _).mp hfar
  simp only [Bool.and_eq_true, Bool.not_eq_true', decide_eq_true_eq] at h h' h''
  obtain ⟨k, hk, hkey⟩ := (Option.any_eq_true _ _).mp h.2
  rw [(Json.isolated_str _ _).1.mp hkey] at hk
  exact ⟨r, r', r'', eq_ok_of_toOption hr, h.1, hk, eq_ok_of_toOption hr', h'.1, h'.2,
    eq_ok_of_toOption hr'', h''.1, h''.2⟩

theorem pointer_edge_of_pointsAt_next : ∃ g, ofTypes cells none = .ok g ∧
    ⟨.str "struct cell", .str "struct cell", .pointsTo, .str "next", .int 0⟩ ∈ g.edges ∧
    ∃ n ∈ g.nodes.values, n.key = .str "struct cell" ∧ n.name ∈ g.selfReferences := by
  obtain ⟨g, hg, -⟩ := exists_ofTypes_cells
  obtain ⟨r, r', -, hr, hvalue, hk, hr', hpointer, hcore, -⟩ := exists_resolve_cells
  have hkey : taggedKey cell.kind cell.name = .str "struct cell" := by cbv
  have hcell : cells.PointsAt none r'.core (.str "struct cell") := by
    rw [hcore]
    exact .here hr hvalue hk
  have hmem : cell ∈ cells.allAggregates := .head _
  obtain ⟨hedge, hself⟩ := pointer_edge_of_pointsAt isTyped_cells hg hmem (.head _) rfl hr' hpointer
    (.behind hr' hpointer hcell) fun r'' h => by
      rw [hcore, hr] at h
      cases h
      exact hvalue
  rw [hkey] at hedge hself
  exact ⟨g, hg, hedge, hself rfl⟩

/-- No edge is there for the pointer to a pointer. -/
theorem pointer_to_alias_has_no_edge : ∃ g r, ofTypes cells none = .ok g ∧
    cell ∈ cells.allAggregates ∧
    cells.resolve none "ref *" = .ok r ∧ r.isPointer = true ∧
    cells.PointsAt none "ref *" (.str "struct cell") ∧
    (∃ m ∈ cell.members, m.name = .str "far" ∧ m.type.spelling = .ok "ref *") ∧
    ∀ e ∈ g.edges, (e.via == .str "far") = false := by
  obtain ⟨g, hg, -, -, hfar⟩ := exists_ofTypes_cells
  obtain ⟨r, r', r'', hr, hvalue, hk, hr', hpointer, hcore, hr'', hpointer', hcore'⟩ :=
    exists_resolve_cells
  have hcell : cells.PointsAt none r'.core (.str "struct cell") := by
    rw [hcore]
    exact .here hr hvalue hk
  have href : cells.PointsAt none r''.core (.str "struct cell") := by
    rw [hcore']
    exact .behind hr' hpointer hcell
  have hmember : ∃ m ∈ cell.members, m.name = .str "far" ∧ m.type.spelling = .ok "ref *" :=
    ⟨_, .tail _ (.head _), rfl, rfl⟩
  exact ⟨g, r'', hg, .head _, hr'', hpointer', .behind hr'' hpointer' href, hmember, hfar⟩

end Declarations

end Branchwise
