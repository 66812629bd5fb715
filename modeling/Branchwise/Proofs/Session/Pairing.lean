import Branchwise.Proofs.Data.Outcome
import Branchwise.Proofs.Declarations.Adding
import Branchwise.Session.Basic

/-!
# Functions and their bodies

A session keeps the record of a function under its identity, which includes its place, and the body
under its name.  Of several entries with one name, the record is that of the first place where the
function is defined and the body that of the last entry with a body.  The two belong together if the
function is defined at one place.
-/

namespace Branchwise

open Declarations List Identity

namespace Document

abbrev Entry := FunctionDecl × Option Tree

variable {file raw name : Json} {es : List Entry} {ks : List Entity} {d : Declarations}
  {path j : Json}

/-! ## Entries -/

def readEntry (file raw : Json) : Decoder Entry := do
  let f ← FunctionDecl.ofJson file raw
  match raw.field? "body" with
  | none => return (f, none)
  | some b =>
    let body ← Tree.ofJson f.file b
    return (← annotate f body, some body)

def readEntries (path j : Json) : Decoder (List Entry) := do
  let file ← j.fieldOr "file" path
  (← j.itemsOf "functions").mapM (readEntry file)

def Entry.entity (e : Entry) : Entity := .function e.1

def keepBody (bodies : Table Json Tree) (e : Entry) : Table Json Tree :=
  match e.2 with
  | none => bodies
  | some body => bodies.put e.1.name body

def store (acc : Declarations × Table Json Tree) (e : Entry) :
    Decoder (Declarations × Table Json Tree) := do
  return ((← acc.1.insert e.entity).2.2, keepBody acc.2 e)

theorem readFunction_eq (file : Json) :
    readFunction file = fun acc raw => readEntry file raw >>= store acc := by
  funext acc raw
  unfold readFunction readEntry
  rw [bind_assoc]
  cases raw.field? "body" with
  | none => rfl
  | some b => simp only [bind_assoc, pure_bind, keepBody, store, Entry.entity]

theorem ends_readEntry (file raw : Json) :
    Ends (fun e => e.2.isSome → e.1.hasBody) (fun _ => True)
      (readEntry file raw) := by
  refine (Ends.any _).bind fun f _ => ?_
  split
  · exact .ok nofun
  · refine (Ends.any _).bind fun body _ => ?_
    have hannotate : Ends (fun f => f.hasBody) (fun _ => True) (annotate f body) := by
      unfold annotate
      dsimp only
      split <;> exact (Ends.any _).bind fun _ _ => .ok rfl
    exact hannotate.bind fun f' h => .ok fun _ => h

theorem hasBody_of_readEntries {e : Entry} (h : readEntries path j = .ok es)
    (he : e ∈ es) (hbody : e.2.isSome) : e.1.hasBody := by
  obtain ⟨file, -, h⟩ := bind_eq_ok h
  obtain ⟨items, -, h⟩ := bind_eq_ok h
  obtain ⟨raw, -, hraw⟩ := (mapM_eq_ok h).2 e he
  exact (ends_readEntry file raw).of_eq_ok e hraw hbody

theorem gathered_foldlM_store {acc acc' : Declarations × Table Json Tree} (hd : Gathered ks acc.1)
    (h : es.foldlM store acc = .ok acc') :
    Gathered (ks ++ es.map Entry.entity) acc'.1 ∧ acc'.2 = es.foldl keepBody acc.2 := by
  induction es generalizing ks acc with
  | nil =>
    cases h
    exact ⟨by simpa using hd, rfl⟩
  | cons e es ih =>
    obtain ⟨next, hnext, h⟩ := bind_eq_ok h
    obtain ⟨x, hx, hnext⟩ := bind_eq_ok hnext
    cases hnext
    obtain ⟨hkey, hadd⟩ := exists_add_of_insert hx
    have hstep : Gathered (ks ++ [e.entity]) x.2.2 := hadd ▸ hd.add hkey
    simpa using ih hstep h

theorem kind_ne_function_of_ofJson {kind : EntityKind} (hkind : kind ≠ .function) {e : Entity}
    (h : Entity.ofJson kind file raw = .ok e) : e.kind ≠ .function := by
  rw [ne_eq, Entity.kind_eq_function_iff]
  rintro ⟨f, rfl⟩
  cases kind with
  | function => exact hkind rfl
  | _ =>
    obtain ⟨a, -, ha⟩ := map_eq_ok h
    cases ha

theorem exists_entries {t : Target} {document : Document}
    (h : Document.ofJson path t j = .ok document) :
    ∃ es ks, readEntries path j = .ok es ∧ (∀ k ∈ ks, k.kind ≠ .function) ∧
      Gathered (ks ++ es.map Entry.entity) document.declarations ∧
      document.bodies = es.foldl keepBody .empty := by
  obtain ⟨file, hfile, h⟩ := bind_eq_ok h
  obtain ⟨d, hd, h⟩ := bind_eq_ok h
  obtain ⟨items, hitems, h⟩ := bind_eq_ok h
  obtain ⟨⟨d', bodies⟩, hd', h⟩ := bind_eq_ok h
  cases h
  have hkinds : ∀ group ∈ groups, group.2 ≠ .function := by decide
  have hgroups : Ends (fun d => ∃ ks, (∀ k ∈ ks, k.kind ≠ .function) ∧ Gathered ks d)
      (fun _ => True) (groups.foldlM (readGroup file j) (.empty t)) := by
    refine .foldlM (fun d hd group hgroup => ?_)
      ⟨[], nofun, distinct_empty t, nofun, rfl, nofun, nofun⟩
    refine (Ends.any _).bind fun items _ => .foldlM (fun d hd raw _ => ?_) hd
    refine (Ends.any _).with_eq.bind fun e he => (Ends.any _).with_eq.bind fun x hx => .ok ?_
    obtain ⟨ks, hks, hd⟩ := hd
    obtain ⟨hkey, hadd⟩ := exists_add_of_insert hx
    exact ⟨ks ++ [e], forall_mem_append.mpr ⟨hks, forall_mem_singleton.mpr
      (kind_ne_function_of_ofJson (hkinds group hgroup) he)⟩, hadd ▸ hd.add hkey⟩
  obtain ⟨ks, hks, hd⟩ := hgroups.of_eq_ok d hd
  rw [readFunction_eq] at hd'
  obtain ⟨es, hes, hd'⟩ := foldlM_bind_eq_ok hd'
  refine ⟨es, ks, ?_, hks, gathered_foldlM_store hd hd'⟩
  rw [readEntries, hfile, ok_bind, hitems]
  exact hes

/-! ## Bodies -/

def lastBody (es : List Entry) (name : Json) : Option Entry :=
  es.reverse.find? fun e => e.2.isSome && e.1.name == name

theorem keepBody_spec {bodies : Table Json Tree} {e : Entry} (he : e.1.name.isKey)
    (h : ∀ x ∈ bodies.entries, x.1.isKey) :
    (∀ x ∈ (keepBody bodies e).entries, x.1.isKey) ∧ (name.isKey →
      (keepBody bodies e).get? name
        = if e.2.isSome && e.1.name == name then e.2 else bodies.get? name) := by
  unfold keepBody
  cases e.2 with
  | none => exact ⟨h, fun _ => rfl⟩
  | some body =>
    refine ⟨fun x hx => ?_, fun hname => ?_⟩
    · rcases Table.mem_entries_put hx with hx | rfl | ⟨w, -, hw, -⟩
      exacts [h x hx, he, h (x.1, w) hw]
    · refine Table.find?_putList body bodies.entries (fun x hx hxk => ?_) fun x hx hxa hka => ?_
      · rw [Bool.eq_iff_iff, Json.beq_iff_mark (h x hx) hname, Json.beq_iff_mark he hname,
          (Json.beq_iff_mark (h x hx) he).mp hxk]
      · rw [Json.beq_iff_mark (h x hx) hname] at hxa
        rw [Json.beq_iff_mark he hname] at hka
        rw [Json.beq_iff_mark (h x hx) he, hxa, hka]

theorem get?_foldl_keepBody (hes : ∀ e ∈ es, e.1.name.isKey) :
    (∀ x ∈ (es.foldl keepBody .empty).entries, x.1.isKey) ∧ (name.isKey →
      (es.foldl keepBody .empty).get? name = (lastBody es name).bind Prod.snd) := by
  induction es using reverseRecOn with
  | nil => exact ⟨nofun, fun _ => rfl⟩
  | append_singleton es e ih =>
    obtain ⟨hes, he⟩ := forall_mem_append.mp hes
    obtain ⟨hkeys, hget⟩ := ih hes
    have hstep : _ ∧ (name.isKey → _) :=
      keepBody_spec (he e mem_cons_self) hkeys
    rw [foldl_append]
    refine ⟨hstep.1, fun hname => (hstep.2 hname).trans ?_⟩
    rw [hget hname, lastBody, lastBody, reverse_append, reverse_singleton,
      singleton_append, find?_cons]
    cases e.2.isSome && e.1.name == name <;> rfl

/-! ## Records -/

def definesAt (ks : List Entity) (name : Json) (i : Identity) : Bool :=
  i.name == name && (i.kind = .function && ks.any fun e => i == e.identity && !e.isDeclarationOnly)

def firstDefined (ks : List Entity) (name : Json) : Option Entity :=
  ks.find? fun e => definesAt ks name e.identity

theorem definesAt_congr (hks : ∀ k ∈ ks, k.identity.isKey) (hname : name.isKey)
    {a b : Identity} (ha : a.isKey) (hb : b.isKey) (h : a == b) :
    definesAt ks name a = definesAt ks name b := by
  have hmark := (beq_iff_mark ha hb).mp h
  have hkind : a.kind = b.kind := congrArg Prod.fst hmark
  have hsame : (a.name == name) = (b.name == name) := by
    rw [Bool.eq_iff_iff, Json.beq_iff_mark (isKey_name ha) hname,
      Json.beq_iff_mark (isKey_name hb) hname, name_mark hmark]
  have hany : (ks.any fun e => a == e.identity && !e.isDeclarationOnly)
      = ks.any fun e => b == e.identity && !e.isDeclarationOnly := by
    rw [Bool.eq_iff_iff, any_eq_true, any_eq_true]
    refine exists_congr fun e => and_congr_right fun he => ?_
    rw [Bool.and_eq_true, Bool.and_eq_true, beq_iff_mark ha (hks e he),
      beq_iff_mark hb (hks e he), hmark]
  rw [definesAt, definesAt, hkind, hsame, hany]

theorem firstDefined_append {fs : List Entity} (hks : ∀ k ∈ ks, k.kind ≠ .function) :
    firstDefined (ks ++ fs) name = firstDefined fs name := by
  have hfront : ks.find? (fun e => definesAt (ks ++ fs) name e.identity) = none := by
    refine find?_eq_none.mpr fun k hk hdef => ?_
    simp only [definesAt, Bool.and_eq_true, decide_eq_true_eq] at hdef
    exact hks k hk hdef.2.1
  rw [firstDefined, find?_append, hfront]
  refine find?_congr fun e _ => ?_
  rw [definesAt, definesAt, any_append]
  by_cases hkind : e.identity.kind = .function
  · have hnone : (ks.any fun k => e.identity == k.identity && !k.isDeclarationOnly) = false := by
      refine any_eq_false.mpr fun k hk hbeq => hks k hk ?_
      rw [Entity.kind, ← kind_eq_of_beq (Bool.and_eq_true_iff.mp hbeq).1, hkind]
    rw [hnone, Bool.false_or]
  · rw [decide_eq_false hkind, Bool.false_and, Bool.false_and]

theorem function?_of_firstDefined {k : Entity} (h : Gathered ks d) (hname : name.isKey)
    (hk : firstDefined ks name = some k) :
    ∃ f, d.function? name = some f ∧ (Entity.function f).identity = k.identity := by
  have hkeys : ∀ a ∈ ks.map Entity.identity, a.isKey := forall_mem_map.mpr h.isKey
  have hi : (ks.map Entity.identity).find? (definesAt ks name) = some k.identity := by
    rw [find?_map]
    exact Option.map_eq_some_iff.mpr ⟨k, hk, rfl⟩
  rw [← Table.find?_eraseDups fun a ha b hb =>
    definesAt_congr h.isKey hname (hkeys a ha) (hkeys b hb), ← h.identities_eq, identities,
    find?_map] at hi
  obtain ⟨x, hx, hxi⟩ := Option.map_eq_some_iff.mp hi
  have hdef := find?_some hx
  simp only [Function.comp_apply, definesAt, Bool.and_eq_true, decide_eq_true_eq] at hdef
  obtain ⟨f, rfl⟩ := Entity.kind_eq_function_iff.mp hdef.2.1
  have hfind : d.find? name (some .function) = some (.function f) := by
    refine Option.or_eq_some_iff.mpr (.inl ?_)
    rw [find?_filter, h.distinct.findAll_eq, find?_filter, ← hx]
    refine find?_congr fun y hy => ?_
    rw [Function.comp_apply, definesAt, ← h.isDeclarationOnly_eq hy, Bool.eq_iff_iff]
    simp only [Bool.and_eq_true, decide_eq_true_iff, Option.all_some]
    exact Iff.rfl
  exact ⟨f, by rw [function?, hfind], hxi⟩

/-! ## Pairs -/

/-- The body of a function is that of its last entry with one, and its record is at the first of its
places where it is defined.  They are of one entry if no other defines it or is at its place. -/
theorem body_last_function_first {t : Target} {s : Session} {f : FunctionDecl}
    {b : Tree} (h : Document.ofJson path t j = .ok s.document) (hf : s.function name = .ok f)
    (hb : s.body name = .ok b) :
    ∃ es g k, readEntries path j = .ok es ∧ lastBody es f.name = some g ∧ g.2 = some b ∧
      firstDefined (es.map Entry.entity) name = some k ∧
      (Entity.function f).identity = k.identity ∧
      ((∀ e ∈ es, (e.1.name == name) = true →
          e.1.hasBody = true ∨ (e.entity.identity == g.entity.identity) = true → e = g) →
        f = g.1.ownLocals) := by
  obtain ⟨es, ks, hes, hks, hd, hbodies⟩ := exists_entries h
  have hkey : ∀ e ∈ es, e.entity.identity.isKey := fun e he =>
    hd.isKey _ (List.mem_append_right _ (List.mem_map_of_mem he))
  have hnames : ∀ e ∈ es, e.1.name.isKey := fun e he => Identity.isKey_name (hkey e he)
  obtain ⟨f', hf', hb⟩ := bind_eq_ok hb
  obtain rfl := Except.ok.inj (hf.symm.trans hf')
  have hfind : s.document.declarations.function? name = some f := function?_of_getFunction hf
  have hmem := mem_of_find? (find?_of_function? hfind)
  have hbeq := hd.distinct.name_of_find? (find?_of_function? hfind)
  have hfkey := hd.distinct.isKey_of_mem hmem
  have hfname : f.name.isKey := Identity.isKey_name hfkey
  have hname := Json.isKey_of_beq hfname hbeq
  have hfmark := (Json.beq_iff_mark hfname hname).mp hbeq
  -- The entry of the body.
  have hget : s.document.bodies.get? f.name = some b := by
    split at hb
    · rw [← Except.ok.inj hb]
      assumption
    · cases hb
  rw [hbodies, (get?_foldl_keepBody hnames).2 hfname] at hget
  obtain ⟨g, hg, hgb⟩ := Option.bind_eq_some_iff.mp hget
  have hgmem : g ∈ es := List.mem_reverse.mp (List.mem_of_find?_eq_some hg)
  have hglast := List.find?_some hg
  have hgname : g.1.name == name := by
    rw [Json.beq_iff_mark (hnames g hgmem) hname, ← hfmark]
    exact (Json.beq_iff_mark (hnames g hgmem) hfname).mp (Bool.and_eq_true_iff.mp hglast).2
  -- It is a definition, so that some place is the first one.
  have hsome : (firstDefined (es.map Entry.entity) name).isSome := by
    refine List.find?_isSome.mpr ⟨_, List.mem_map_of_mem hgmem, ?_⟩
    rw [definesAt, Bool.and_eq_true]
    refine ⟨hgname, List.any_eq_true.mpr ⟨_, List.mem_map_of_mem hgmem, ?_⟩⟩
    rw [Bool.and_eq_true]
    exact ⟨(Identity.beq_iff_mark (hkey g hgmem) (hkey g hgmem)).mpr rfl, (Bool.not_not _).trans
      (hasBody_of_readEntries hes hgmem (Option.isSome_of_eq_some hgb))⟩
  obtain ⟨k, hk⟩ := Option.isSome_iff_exists.mp hsome
  obtain ⟨f', hf', hplace⟩ :=
    function?_of_firstDefined hd hname ((firstDefined_append hks).trans hk)
  obtain rfl := Option.some.inj (hfind.symm.trans hf')
  refine ⟨es, g, k, hes, hg, hgb, hk, hplace, fun hall => ?_⟩
  -- The definition at the first place is the entry of the body.
  have hkfirst := List.find?_some hk
  simp only [definesAt, ← hplace, Bool.and_eq_true, List.any_map, List.any_eq_true,
    Function.comp_apply] at hkfirst
  obtain ⟨-, -, e, he, hplaces, hebody⟩ := hkfirst
  rw [Identity.beq_iff_mark hfkey (hkey e he)] at hplaces
  have hsame {e : Entry} (he : e ∈ es)
      (hmark : (Entity.function f).identity.mark = e.entity.identity.mark) :
      (e.1.name == name) := by
    rw [Json.beq_iff_mark (hnames e he) hname, ← hfmark]
    exact (Identity.name_mark hmark).symm
  obtain rfl := hall e he (hsame he hplaces) (.inl ((Bool.not_not _).symm.trans hebody))
  refine Entity.function.inj (hd.eq_prepared (e := e.entity) hmem fun x hx hbeq => ?_)
  rcases List.mem_append.mp hx with hx | hx
  · exact (hks x hx (Identity.kind_eq_of_beq hbeq).symm).elim
  · obtain ⟨e', he', rfl⟩ := List.mem_map.mp hx
    have hmark := (Identity.beq_iff_mark hfkey (hkey e' he')).mp hbeq
    refine congrArg _ (hall e' he' (hsame he' hmark) (.inr ?_))
    rw [Identity.beq_iff_mark (hkey e' he') (hkey e he), ← hmark, hplaces]

def unitOf (files : List String) : Json :=
  .obj [("functions", .arr (.obj [("name", .str "f"), ("file", .str "f.h")] ::
    files.map fun file => .obj [("name", .str "f"), ("file", .str file),
      ("body", .obj [("kind", .str "return")])]))]

def sessionOf (files : List String) : Session where
  document := (Document.ofJson .null .lp64 (unitOf files)).toOption.getD ⟨"", .empty .lp64, .empty⟩
  aliases := .standard .lp64
  settings := .standard
  symbols := .empty
  analyses := .empty
  domains := .empty
  calls := none

theorem body_last_function_first_header :
    ∃ f b, Document.ofJson .null .lp64 (unitOf ["a.c"]) = .ok (sessionOf ["a.c"]).document ∧
      (sessionOf ["a.c"]).function (.str "f") = .ok f ∧
      (sessionOf ["a.c"]).body (.str "f") = .ok b ∧
      ∃ es g, readEntries .null (unitOf ["a.c"]) = .ok es ∧ lastBody es f.name = some g ∧
        g.2 = some b ∧ f = g.1.ownLocals := by
  have hunit : Document.ofJson .null .lp64 (unitOf ["a.c"]) = .ok (sessionOf ["a.c"]).document :=
    rfl
  obtain ⟨f, b, hf, hb, hname⟩ : ∃ f b, (sessionOf ["a.c"]).function (.str "f") = .ok f ∧
      (sessionOf ["a.c"]).body (.str "f") = .ok b ∧ f.name = .str "f" := ⟨_, _, rfl, rfl, rfl⟩
  obtain ⟨es, g, -, hes, hg, hgb, -, -, h⟩ := body_last_function_first hunit hf hb
  refine ⟨f, b, hunit, hf, hb, es, g, hes, hg, hgb, h ?_⟩
  obtain ⟨e, e', hes', he, hapart, hlast⟩ : ∃ e e',
      readEntries .null (unitOf ["a.c"]) = .ok [e, e'] ∧ e.1.hasBody = false ∧
      (e.entity.identity == e'.entity.identity) = false ∧
      lastBody [e, e'] (.str "f") = some e' := ⟨_, _, rfl, rfl, rfl, rfl⟩
  obtain rfl := Except.ok.inj (hes.symm.trans hes')
  obtain rfl := Option.some.inj (hlast.symm.trans (hname ▸ hg))
  simp [he, hapart]

/-- The record of a function that is defined in two files is that of the first one, and its body
that of the second one. -/
theorem function_of_first_body_of_last :
    Document.ofJson .null .lp64 (unitOf ["a.c", "b.c"]) = .ok (sessionOf ["a.c", "b.c"]).document ∧
      ((sessionOf ["a.c", "b.c"]).function (.str "f")).map (fun f => f.file) = .ok (.str "a.c") ∧
      ((sessionOf ["a.c", "b.c"]).body (.str "f")).map (fun b => b.label.file) = .ok (.str "b.c") :=
  ⟨rfl, rfl, rfl⟩

end Document

end Branchwise
