/-!
# Computations that may fail

A computation with a result is taken apart into its steps, each with its own result.  What is known
of the results and the errors of its steps is put together to what is known of its own.
-/

namespace Branchwise

open List

variable {ε σ α β : Type}

theorem bind_eq_ok {x : Except ε α} {f : α → Except ε β} {b : β} (h : x >>= f = .ok b) :
    ∃ a, x = .ok a ∧ f a = .ok b := by
  cases x with
  | error e => cases h
  | ok a => exact ⟨a, rfl, h⟩

theorem map_eq_ok {x : Except ε α} {f : α → β} {b : β} (h : x.map f = .ok b) :
    ∃ a, x = .ok a ∧ f a = b := by
  cases x with
  | error e => cases h
  | ok a => exact ⟨a, rfl, Except.ok.inj h⟩

theorem eq_ok_of_toOption {x : Except ε α} {a : α} (h : x.toOption = some a) : x = .ok a := by
  cases x with
  | error e => cases h
  | ok b => exact congrArg Except.ok (Option.some.inj h)

@[simp]
theorem ok_bind (a : α) (f : α → Except ε β) : (Except.ok a >>= f) = f a := rfl

theorem mapM_eq_ok {f : α → Except ε β} {xs : List α} {ys : List β} (h : xs.mapM f = .ok ys) :
    (∀ x ∈ xs, ∃ y ∈ ys, f x = .ok y) ∧ ∀ y ∈ ys, ∃ x ∈ xs, f x = .ok y := by
  induction xs generalizing ys with
  | nil =>
    cases h
    exact ⟨nofun, nofun⟩
  | cons x xs ih =>
    rw [mapM_cons] at h
    obtain ⟨y, hy, h⟩ := bind_eq_ok h
    obtain ⟨rest, hrest, h⟩ := bind_eq_ok h
    cases h
    obtain ⟨hof, hto⟩ := ih hrest
    refine ⟨List.forall_mem_cons.mpr ⟨⟨y, mem_cons_self, hy⟩, fun x' hx' => ?_⟩,
      forall_mem_cons.mpr ⟨⟨x, mem_cons_self, hy⟩, fun y' hy' => ?_⟩⟩
    · obtain ⟨y', hy', heq⟩ := hof x' hx'
      exact ⟨y', mem_cons_of_mem _ hy', heq⟩
    · obtain ⟨x', hx', heq⟩ := hto y' hy'
      exact ⟨x', mem_cons_of_mem _ hx', heq⟩

theorem exists_step_of_foldlM {f : α → β → Except ε α} {xs : List β} {a a' : α}
    (h : xs.foldlM f a = .ok a') : ∀ x ∈ xs, ∃ b b', f b x = .ok b' := by
  induction xs generalizing a with
  | nil => exact nofun
  | cons x xs ih =>
    obtain ⟨b, hb, h⟩ := bind_eq_ok h
    exact forall_mem_cons.mpr ⟨⟨a, b, hb⟩, ih h⟩

theorem exists_foldlM_eq_ok {f : α → β → Except ε α} {xs : List β} {a : α}
    (h : ∀ x ∈ xs, ∀ a, ∃ a', f a x = .ok a') : ∃ a', xs.foldlM f a = .ok a' := by
  induction xs generalizing a with
  | nil => exact ⟨a, rfl⟩
  | cons x xs ih =>
    rw [forall_mem_cons] at h
    obtain ⟨a', ha'⟩ := h.1 a
    rw [foldlM_cons, ha']
    exact ih h.2

theorem foldlM_bind_eq_ok {f : α → Except ε β} {g : σ → β → Except ε σ} {xs : List α} {s s' : σ}
    (h : xs.foldlM (fun s x => f x >>= g s) s = .ok s') :
    ∃ ys, xs.mapM f = .ok ys ∧ ys.foldlM g s = .ok s' := by
  induction xs generalizing s with
  | nil => exact ⟨[], rfl, h⟩
  | cons x xs ih =>
    obtain ⟨s1, hs1, h⟩ := bind_eq_ok h
    obtain ⟨y, hy, hs1⟩ := bind_eq_ok hs1
    obtain ⟨ys, hys, h⟩ := ih h
    refine ⟨y :: ys, ?_, ?_⟩
    · rw [mapM_cons, hy, hys]
      rfl
    · rw [foldlM_cons, hs1]
      exact h

theorem exists_mapM_eq_ok {f : α → Except ε β} {xs : List α} (h : ∀ x ∈ xs, ∃ y, f x = .ok y) :
    ∃ ys, xs.mapM f = .ok ys := by
  induction xs with
  | nil => exact ⟨[], rfl⟩
  | cons x xs ih =>
    rw [forall_mem_cons] at h
    obtain ⟨y, hy⟩ := h.1
    obtain ⟨ys, hys⟩ := ih h.2
    exact ⟨y :: ys, by rw [mapM_cons, hy, hys]; rfl⟩

theorem mapM_eq_ok_map {f : α → Except ε β} {g : α → β} {xs : List α}
    (h : ∀ x ∈ xs, f x = .ok (g x)) : xs.mapM f = .ok (xs.map g) := by
  induction xs with
  | nil => rfl
  | cons x xs ih =>
    rw [forall_mem_cons] at h
    rw [mapM_cons, h.1, ih h.2]
    rfl

theorem filterMapM_loop_eq_ok {f : α → Except ε (Option β)} {xs : List α} {acc ys : List β}
    (h : filterMapM.loop f xs acc = .ok ys) :
    (∀ x ∈ xs, ∃ r, f x = .ok r) ∧ ∀ y, y ∈ ys ↔ y ∈ acc ∨ ∃ x ∈ xs, f x = .ok (some y) := by
  induction xs generalizing acc with
  | nil =>
    obtain rfl : acc.reverse = ys := Except.ok.inj h
    exact ⟨nofun, fun y => by simp⟩
  | cons x xs ih =>
    obtain ⟨r, hr, hrest⟩ := bind_eq_ok h
    cases r with
    | none =>
      obtain ⟨hall, hmem⟩ := ih hrest
      refine ⟨List.forall_mem_cons.mpr ⟨⟨none, hr⟩, hall⟩, fun y => ?_⟩
      rw [hmem]
      simp [hr]
    | some z =>
      obtain ⟨hall, hmem⟩ := ih hrest
      refine ⟨List.forall_mem_cons.mpr ⟨⟨some z, hr⟩, hall⟩, fun y => ?_⟩
      rw [hmem]
      simp [hr, or_left_comm, or_assoc, eq_comm]

theorem filterMapM_eq_ok {f : α → Except ε (Option β)} {xs : List α} {ys : List β}
    (h : xs.filterMapM f = .ok ys) :
    (∀ x ∈ xs, ∃ r, f x = .ok r) ∧ ∀ y, y ∈ ys ↔ ∃ x ∈ xs, f x = .ok (some y) := by
  obtain ⟨hall, hmem⟩ := filterMapM_loop_eq_ok h
  exact ⟨hall, fun y => by rw [hmem, or_iff_right not_mem_nil]⟩

theorem exists_filterMapM_eq_ok {f : α → Except ε (Option β)} {xs : List α}
    (h : ∀ x ∈ xs, ∃ r, f x = .ok r) : ∃ ys, xs.filterMapM f = .ok ys := by
  suffices hloop : ∀ acc, ∃ ys, filterMapM.loop f xs acc = .ok ys from hloop []
  induction xs with
  | nil => exact fun acc => ⟨acc.reverse, rfl⟩
  | cons x xs ih =>
    intro acc
    rw [forall_mem_cons] at h
    obtain ⟨⟨r, hr⟩, h⟩ := h
    unfold filterMapM.loop
    rw [hr]
    cases r with
    | none => exact ih h acc
    | some y => exact ih h (y :: acc)

theorem bind_of_eq_ok {x : StateT σ (Except ε) α} {f : α → StateT σ (Except ε) β} {s s' : σ} {a : α}
    (h : x s = .ok (a, s')) : (x >>= f) s = f a s' := by
  show (x s >>= fun p => f p.1 p.2) = f a s'
  rw [h]
  rfl

theorem exists_of_bind_eq_ok {x : StateT σ (Except ε) α} {f : α → StateT σ (Except ε) β} {s s' : σ}
    {b : β} (h : (x >>= f) s = .ok (b, s')) : ∃ a s1, x s = .ok (a, s1) ∧ f a s1 = .ok (b, s') := by
  obtain ⟨⟨a, s1⟩, hx, hf⟩ := bind_eq_ok (x := x s) (f := fun p => f p.1 p.2) h
  exact ⟨a, s1, hx, hf⟩

theorem run_bind (x : ExceptT ε (StateM σ) α) (f : α → ExceptT ε (StateM σ) β) (s : σ) :
    (x >>= f).run.run s = match x.run.run s with
      | (.ok a, s') => (f a).run.run s'
      | (.error e, s') => (.error e, s') := by
  rw [ExceptT.run_bind, StateT.run_bind]
  rcases x.run.run s with ⟨_ | a, s'⟩ <;> rfl

/-! ## How a computation ends -/

/-- A computation ends with a result of which one thing holds, or with an error of which another
does. -/
structure Ends {ε α : Type} (Q : α → Prop) (P : ε → Prop) (x : Except ε α) : Prop where
  of_eq_ok : ∀ a, x = .ok a → Q a
  of_eq_error : ∀ e, x = .error e → P e

abbrev FailsOnly {ε α : Type} (P : ε → Prop) (x : Except ε α) : Prop := Ends (fun _ => True) P x

namespace Ends

variable {Q : α → Prop} {R : β → Prop} {P : ε → Prop} {x : Except ε α}

theorem ok {a : α} (h : Q a) : Ends Q P (.ok a) := ⟨fun _ ha => Except.ok.inj ha ▸ h, nofun⟩

theorem error {e : ε} (h : P e) : Ends Q P (.error e) :=
  ⟨nofun, fun _ he => Except.error.inj he ▸ h⟩

theorem any (x : Except ε α) : Ends (fun _ => True) (fun _ => True) x :=
  ⟨fun _ _ => trivial, fun _ _ => trivial⟩

theorem of_exists (h : ∃ a, x = .ok a ∧ Q a) : Ends Q P x := by
  obtain ⟨a, rfl, ha⟩ := h
  exact .ok ha

theorem imp {Q' : α → Prop} {P' : ε → Prop} (hx : Ends Q P x) (hQ : ∀ a, Q a → Q' a)
    (hP : ∀ e, P e → P' e) : Ends Q' P' x :=
  ⟨fun a h => hQ a (hx.of_eq_ok a h), fun e h => hP e (hx.of_eq_error e h)⟩

theorem with_eq (hx : Ends Q P x) : Ends (fun a => x = .ok a) P x := ⟨fun _ h => h, hx.of_eq_error⟩

theorem bind {f : α → Except ε β} (hx : Ends Q P x) (hf : ∀ a, Q a → Ends R P (f a)) :
    Ends R P (x >>= f) := by
  cases x with
  | ok a => exact hf a (hx.of_eq_ok a rfl)
  | error e => exact .error (hx.of_eq_error e rfl)

theorem mapM {f : β → Except ε α} {xs : List β} (hf : ∀ x ∈ xs, Ends Q P (f x)) :
    Ends (fun ys => ∀ y ∈ ys, Q y) P (xs.mapM f) := by
  induction xs with
  | nil => exact .ok nofun
  | cons x xs ih =>
    rw [forall_mem_cons] at hf
    rw [mapM_cons]
    refine hf.1.bind fun y hy => (ih hf.2).bind fun ys hys => .ok ?_
    exact forall_mem_cons.mpr ⟨hy, hys⟩

theorem foldlM {f : α → β → Except ε α} {xs : List β} {a : α}
    (hf : ∀ a, Q a → ∀ x ∈ xs, Ends Q P (f a x)) (ha : Q a) : Ends Q P (xs.foldlM f a) := by
  induction xs generalizing a with
  | nil => exact .ok ha
  | cons x xs ih =>
    refine (hf a ha x mem_cons_self).bind fun a' ha' => ih (fun b hb y hy => ?_) ha'
    exact hf b hb y (mem_cons_of_mem _ hy)

end Ends

end Branchwise
