import Branchwise.Session.Basic
import Branchwise.Proofs.Declarations.Findings
import Branchwise.Proofs.Layout.Failures

/-!
# Validation of a unit

Problems of a well-typed unit are findings, with one exception: a cycle of aliases that the type of
a member leads into is caught nowhere while layouts are computed.  Besides, an array extent may be
no decimal numeral, and a size may be too long to be written.
-/

namespace Branchwise

open Declarations List

/-! ## Units that are read -/

/-- Entities are added to the declarations of a unit, of which no layout is kept. -/
def Declarations.IsFresh (d : Declarations) : Prop := d.Reached ∧ d.layouts = .empty

theorem Declarations.IsFresh.insert {d d' : Declarations} {e stored : Entity} {isNew : Bool}
    (hd : d.IsFresh) (h : d.insert e = .ok (isNew, stored, d')) : d'.IsFresh := by
  refine ⟨hd.1.add h, ?_⟩
  obtain ⟨-, rfl⟩ := exists_add_of_insert h
  rw [layouts_add, hd.2]

theorem ends_insert {d : Declarations} (hd : d.IsFresh) (e : Entity) :
    Ends (fun x => x.2.2.IsFresh) (fun _ => True) (d.insert e) :=
  ⟨fun _ h => hd.insert h, fun _ _ => trivial⟩

theorem Document.isFresh_ofJson {path : Json} {t : Target} {j : Json} {document : Document}
    (h : Document.ofJson path t j = .ok document) : document.declarations.IsFresh := by
  have hempty : (Declarations.empty t).IsFresh := ⟨.empty t, rfl⟩
  obtain ⟨file, -, h⟩ := bind_eq_ok h
  obtain ⟨d, hd, h⟩ := bind_eq_ok h
  obtain ⟨items, -, h⟩ := bind_eq_ok h
  obtain ⟨⟨d', bodies⟩, hd', h⟩ := bind_eq_ok h
  cases h
  have hgroups : Ends IsFresh (fun _ => True) (groups.foldlM (readGroup file j) (.empty t)) := by
    refine .foldlM (fun d hd group _ => ?_) hempty
    refine (Ends.any _).bind fun items _ => .foldlM (fun d hd raw _ => ?_) hd
    exact (Ends.any _).bind fun e _ => (ends_insert hd e).bind fun _ h => .ok h
  have hfunctions : Ends (fun x => x.1.IsFresh) (fun _ => True)
      (items.foldlM (readFunction file) (d, .empty)) := by
    refine .foldlM (fun acc hacc raw _ => ?_) (hgroups.of_eq_ok d hd)
    refine (Ends.any _).bind fun f _ => ?_
    split
    · exact (ends_insert hacc _).bind fun _ h => .ok h
    · exact (Ends.any _).bind fun body _ => (Ends.any _).bind fun f _ =>
        (ends_insert hacc _).bind fun _ h => .ok h
  exact hfunctions.of_eq_ok _ hd'

namespace Session

/-! ## Asking for all findings -/

theorem run_validate (s : Session) :
    validate.run.run s = match s.declarations.issues (some s.aliases) with
      | .error e => (.error e, s)
      | .ok own =>
        let found := s.declarations.runLaying (s.declarations.layoutIssues (some s.aliases))
        (found.1.map (own ++ ·), { s with document.declarations := found.2 }) := by
  have hget : (get : Question Session).run.run s = (.ok s, s) := rfl
  rw [validate, run_bind, hget]
  dsimp only
  cases s.declarations.issues (some s.aliases) with
  | error e => rfl
  | ok own =>
    rcases s.declarations.runLaying (s.declarations.layoutIssues (some s.aliases)) with
      ⟨e | found, d⟩ <;> rfl

/-- **Validation answers, or fails for one of three reasons.**  A request for all findings on a
well-typed unit is answered unless the type of a member that declares no size leads into a cycle of
aliases, an array extent cannot be read, or a size is too long to be written; the unit stays
well-typed.  A cycle that is met before any other member of unknown size does make it fail. -/
theorem validate_answers_or_escapes {s : Session} (hreached : s.declarations.Reached)
    (htyped : s.declarations.IsTyped) :
    ((∃ found, (validate.run.run s).1 = .ok found) ∨
      ∃ e, (validate.run.run s).1 = .error e ∧ s.declarations.Escapes (some s.aliases) e) ∧
    ((validate.run.run s).2.declarations.Reached ∧
      (validate.run.run s).2.declarations.IsTyped) ∧
    ∀ a ∈ s.declarations.allAggregates, s.declarations.layouts.get? a.identity = none →
      s.declarations.MeetsCycle (some s.aliases) a →
        ∃ e, (validate.run.run s).1 = .error e := by
  have hissues : FailsOnly (s.declarations.Unreadable (some s.aliases))
      (s.declarations.issues (some s.aliases)) := failsOnly_issues htyped
  obtain ⟨hwhole, hends⟩ : _ ∧ Ends _ (s.declarations.Escapes (some s.aliases))
      (s.declarations.runLaying (s.declarations.layoutIssues (some s.aliases))).1 :=
    settles_layoutIssues htyped s.declarations.layouts htyped.layouts
  have hlaid :
      (s.declarations.runLaying (s.declarations.layoutIssues (some s.aliases))).2.IsTyped :=
    ⟨htyped.toInStep.congr rfl rfl rfl, htyped.target, htyped.entities, hwhole⟩
  have hfails : ∀ a ∈ s.declarations.allAggregates, s.declarations.layouts.get? a.identity = none →
      s.declarations.MeetsCycle (some s.aliases) a →
        ∃ e, (s.declarations.runLaying (s.declarations.layoutIssues (some s.aliases))).1 =
          .error e :=
    fun a ha hnone hcycle => exists_error_layoutIssues htyped hreached.kept.toDistinct ha hcycle
      (lacks_iff.mpr hnone)
  rw [run_validate]
  -- The declarations are looked at first; where that fails, no layout is asked for.
  cases hown : s.declarations.issues (some s.aliases) with
  | error e =>
    refine ⟨.inr ⟨e, rfl, .extent (hissues.of_eq_error e hown)⟩, ⟨hreached, htyped⟩, ?_⟩
    exact fun _ _ _ _ => ⟨e, rfl⟩
  | ok own =>
    refine ⟨?_, ⟨hreached.layoutIssues _, hlaid⟩, fun a ha hnone hcycle => ?_⟩
    · dsimp only
      cases hfound :
        (s.declarations.runLaying (s.declarations.layoutIssues (some s.aliases))).1 with
      | error e => exact .inr ⟨e, rfl, hends.of_eq_error e hfound⟩
      | ok found => exact .inl ⟨own ++ found, rfl⟩
    · obtain ⟨e, he⟩ := hfails a ha hnone hcycle
      exact ⟨e, by dsimp only; rw [he]; rfl⟩

/-! ### A struct with a cyclic alias -/

/-- Two aliases that stand for each other, and a struct with a member of such a type. -/
def cyclicUnit : Json := .obj [("file", .str "t.c"),
  ("typedefs", .arr [.obj [("name", .str "a"), ("type", .str "b"), ("line", .int 1)],
    .obj [("name", .str "b"), ("type", .str "a"), ("line", .int 2)]]),
  ("structs", .arr [.obj [("name", .str "s"), ("line", .int 3),
    ("members", .arr [.obj [("name", .str "n"), ("type", .str "int")],
      .obj [("name", .str "x"), ("type", .str "a")]])]])]

def cyclicStruct : AggregateDecl :=
  { isUnion := false, name := .str "s", file := .str "t.c", line := .int 3, isPacked := .bool false
    members := [⟨.str "n", .str "int", .null, .null, .null, .null, .int 0⟩,
      ⟨.str "x", .str "a", .null, .null, .null, .null, .int 0⟩] }

def cyclicDocument : Document where
  path := "t.c"
  declarations := (Declarations.empty .lp64).addAll [
    .typedef ⟨.str "a", .str "b", .str "t.c", .int 1⟩,
    .typedef ⟨.str "b", .str "a", .str "t.c", .int 2⟩, .aggregate cyclicStruct]
  bodies := .empty

def cyclicSession : Session where
  document := cyclicDocument
  aliases := (cyclicDocument.declarations.registerAliases (.str "Source") (.standard .lp64)).2
  settings := .standard
  symbols := .empty
  analyses := .empty
  domains := .empty
  calls := none

theorem ofJson_cyclicUnit : Document.ofJson (.str "t.c") .lp64 cyclicUnit = .ok cyclicDocument := by
  rfl

theorem isTyped_cyclicSession : cyclicSession.declarations.IsTyped := by
  have hreached := (Document.isFresh_ofJson ofJson_cyclicUnit).1
  refine ⟨hreached.kept.toInStep, ⟨rfl, rfl, rfl, rfl⟩, ?_, nofun⟩
  have hmembers : ∀ m ∈ cyclicStruct.members, m.IsTyped := by
    simp only [cyclicStruct, forall_mem_cons]
    exact ⟨⟨rfl, rfl, .inl rfl, .inl rfl, .inl rfl, .inl rfl⟩,
      ⟨rfl, rfl, .inl rfl, .inl rfl, .inl rfl, .inl rfl⟩, nofun⟩
  have hentities : cyclicSession.declarations.entities = [
    .typedef ⟨.str "a", .str "b", .str "t.c", .int 1⟩,
    .typedef ⟨.str "b", .str "a", .str "t.c", .int 2⟩, .aggregate cyclicStruct] := by rfl
  simp only [hentities, forall_mem_cons]
  exact ⟨⟨rfl, rfl⟩, ⟨rfl, rfl⟩, ⟨rfl, hmembers⟩, nofun⟩

def failedChain? {α : Type} : Except Error α → Option (List String)
  | .error (.aliasCycle chain) => some chain
  | _ => none

theorem eq_error_of_failedChain? {α : Type} {x : Except Error α} {chain : List String}
    (h : failedChain? x = some chain) : x = .error (.aliasCycle chain) := by
  unfold failedChain? at h
  split at h
  · rw [Option.some.inj h]
  · cases h

theorem meetsCycle_cyclicStruct :
    cyclicSession.declarations.MeetsCycle (some cyclicSession.aliases) cyclicStruct := by
  have hchain : cyclicSession.declarations.resolve (some cyclicSession.aliases) "a" =
      .error (.aliasCycle ["a", "b", "a"]) := eq_error_of_failedChain? (by decide +kernel)
  have hint : (cyclicSession.declarations.resolve (some cyclicSession.aliases) "int").toOption.map
      (fun r => (r.aggregate.isNone, r.base)) = some (true, some .int) := by
    decide +kernel
  obtain ⟨r, hr, hbase⟩ := Option.map_eq_some_iff.mp hint
  obtain ⟨haggregate, hbase⟩ := Prod.mk.inj hbase
  refine ⟨[⟨.str "n", .str "int", .null, .null, .null, .null, .int 0⟩], _, [], "a", _, rfl,
    forall_mem_singleton.mpr (.inr ⟨"int", r, rfl, eq_ok_of_toOption hr, .inr ?_⟩), rfl, rfl,
    hchain⟩
  exact ⟨Option.isNone_iff_eq_none.mp haggregate, .int, hbase, by decide⟩

theorem validate_answers_or_escapes_cyclic :
    Document.ofJson (.str "t.c") .lp64 cyclicUnit = .ok cyclicDocument ∧
      cyclicSession.declarations.Reached ∧ cyclicSession.declarations.IsTyped ∧
      cyclicSession.declarations.MeetsCycle (some cyclicSession.aliases) cyclicStruct ∧
      ∃ e, (validate.run.run cyclicSession).1 = .error e ∧
        cyclicSession.declarations.Escapes (some cyclicSession.aliases) e := by
  have hreached : cyclicSession.declarations.Reached :=
    (Document.isFresh_ofJson ofJson_cyclicUnit).1
  have hmem : cyclicStruct ∈ cyclicSession.declarations.allAggregates := mem_cons_self
  obtain ⟨houtcome, -, hfails⟩ := validate_answers_or_escapes hreached isTyped_cyclicSession
  obtain ⟨e, he⟩ := hfails cyclicStruct hmem rfl meetsCycle_cyclicStruct
  refine ⟨ofJson_cyclicUnit, hreached, isTyped_cyclicSession, meetsCycle_cyclicStruct, ?_⟩
  rcases houtcome with ⟨found, hfound⟩ | hescapes
  · cases hfound.symm.trans he
  · exact hescapes

/-- The findings on the declarations report the cycle, once for the alias and once for the member,
but a session that starts on the unit fails at it. -/
theorem validate_fails_at_alias_cycle :
    (start cyclicDocument (.standard .lp64) .standard).1 = .ok cyclicSession ∧
      (∃ own, cyclicSession.declarations.issues (some cyclicSession.aliases) = .ok own ∧
        own.map Issue.kind = [.typedefCycle, .typedefCycle]) ∧
      (validate.run.run cyclicSession).1 = .error (.aliasCycle ["a", "b", "a"]) := by
  have hregistered : (cyclicDocument.declarations.registerAliases (.str "Source")
      (.standard .lp64)).1 = .ok 2 := eq_ok_of_toOption (by decide +kernel)
  have hconstants : cyclicDocument.declarations.constants = .ok .empty := rfl
  have hfloor : Domain.floor Settings.standard.solverTimeout = .ok 5000 :=
    eq_ok_of_toOption (by decide +kernel)
  have hkinds : (cyclicSession.declarations.issues (some cyclicSession.aliases)).toOption.map
      (·.map Issue.kind) = some [.typedefCycle, .typedefCycle] := by
    decide +kernel
  obtain ⟨own, hown, hkinds⟩ := Option.map_eq_some_iff.mp hkinds
  refine ⟨?_, ⟨own, eq_ok_of_toOption hown, hkinds⟩, eq_error_of_failedChain? (by decide +kernel)⟩
  unfold start
  dsimp only
  rw [hregistered, hconstants, hfloor]
  rfl

end Session

end Branchwise
