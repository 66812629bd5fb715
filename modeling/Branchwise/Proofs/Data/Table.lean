import Branchwise.Data.Table
import Mathlib.Data.List.Induction

/-!
# Reading a table after an update

A table is read through `get?` and `contains`.  The theorems below say what each reading gives after
`put`, so that a search or a registry that keeps its state in a table never looks at the entries.
-/

namespace Branchwise.Table

open List

variable {κ α : Type} [BEq κ] {t : Table κ α} {a k : κ} {v : α} {ks : List κ} {P : κ → Prop}

theorem contains_eq_isSome_get? (t : Table κ α) (k : κ) : t.contains k = (t.get? k).isSome := by
  rw [Bool.eq_iff_iff, contains, get?, Option.isSome_map, find?_isSome, any_eq_true]

theorem keys_put (t : Table κ α) (k : κ) (v : α) :
    (t.put k v).keys = if t.contains k then t.keys else t.keys ++ [k] := by
  obtain ⟨es⟩ := t
  show (putList k v es).map Prod.fst
    = if (es.any fun e => e.1 == k) then es.map Prod.fst else es.map Prod.fst ++ [k]
  induction es with
  | nil => rfl
  | cons e es ih =>
    unfold putList
    by_cases he : e.1 == k
    · rw [any_cons, he]
      rfl
    · rw [if_neg he, map_cons, ih, any_cons, Bool.eq_false_iff.mpr he,
        Bool.false_or]
      split <;> rfl

theorem put_of_contains_eq_false (v : α) (h : t.contains k = false) :
    t.put k v = ⟨t.entries ++ [(k, v)]⟩ := by
  obtain ⟨es⟩ := t
  show (⟨putList k v es⟩ : Table κ α) = ⟨es ++ [(k, v)]⟩
  congr 1
  replace h : (es.any fun e => e.1 == k) = false := h
  induction es with
  | nil => rfl
  | cons e es ih =>
    rw [any_cons, Bool.or_eq_false_iff] at h
    rw [putList, h.1, if_neg Bool.false_ne_true, ih h.2, cons_append]

theorem mem_entries_put {e : κ × α} (h : e ∈ (t.put k v).entries) :
    e ∈ t.entries ∨ e = (k, v) ∨ ∃ w, e.1 == k ∧ (e.1, w) ∈ t.entries ∧ e.2 = v := by
  obtain ⟨es⟩ := t
  have he : e ∈ putList k v es := h
  clear h
  induction es with
  | nil => exact .inr (.inl (mem_singleton.mp he))
  | cons f es ih =>
    unfold putList at he
    split at he
    · rcases mem_cons.mp he with rfl | he
      · exact .inr (.inr ⟨f.2, ‹_›, mem_cons_self, rfl⟩)
      · exact .inl (mem_cons_of_mem _ he)
    · rcases mem_cons.mp he with rfl | he
      · exact .inl mem_cons_self
      · rcases ih he with he | he | ⟨w, hbeq, hw, hv⟩
        · exact .inl (mem_cons_of_mem _ he)
        · exact .inr (.inl he)
        · exact .inr (.inr ⟨w, hbeq, mem_cons_of_mem _ hw, hv⟩)

theorem exists_mem_of_get? (h : t.get? k = some v) :
    ∃ k', k' == k ∧ (k', v) ∈ t.entries := by
  obtain ⟨e, he, rfl⟩ := Option.map_eq_some_iff.mp h
  have hbeq := find?_some he
  exact ⟨e.1, hbeq, mem_of_find?_eq_some he⟩

theorem mem_values_put {w : α} (h : w ∈ (t.put k v).values) : w ∈ t.values ∨ w = v := by
  obtain ⟨e, he, rfl⟩ := mem_map.mp h
  rcases mem_entries_put he with he | rfl | ⟨-, -, -, he⟩
  · exact .inl (mem_map_of_mem he)
  · exact .inr rfl
  · exact .inr he

theorem mem_values_of_get? (h : t.get? k = some v) : v ∈ t.values := by
  obtain ⟨k', -, he⟩ := exists_mem_of_get? h
  exact mem_map_of_mem he

def Separates (P : κ → Prop) : Prop := ∀ a b, P a → P b → (a == b ↔ a = b)

theorem Separates.list (hP : Separates P) : Separates fun ks : List κ => ∀ k ∈ ks, P k := by
  intro ks ks' h h'
  induction ks generalizing ks' with
  | nil => cases ks' <;> simp
  | cons k ks ih =>
    cases ks' with
    | nil => simp
    | cons k' ks' =>
      rw [forall_mem_cons] at h h'
      rw [cons_beq_cons, Bool.and_eq_true, hP k k' h.1 h'.1, ih ks' h.2 h'.2, cons.injEq]

/-- The first entry for a key after the value of another was put, if what counts as one with the
other counts for the key as the other does. -/
theorem find?_putList (v : α) (es : List (κ × α))
    (hk : ∀ e ∈ es, e.1 == k → (e.1 == a) = (k == a))
    (ha : ∀ e ∈ es, e.1 == a → k == a → e.1 == k) :
    ((putList k v es).find? fun e => e.1 == a).map Prod.snd
      = if k == a then some v else (es.find? fun e => e.1 == a).map Prod.snd := by
  induction es with
  | nil => by_cases h : k == a <;> simp [putList]
  | cons e es ih =>
    have ih' := ih (fun e' he' => hk e' (mem_cons_of_mem _ he'))
      fun e' he' => ha e' (mem_cons_of_mem _ he')
    unfold putList
    by_cases hek : e.1 == k
    · have hea := hk e mem_cons_self hek
      rw [if_pos hek]
      by_cases h : k == a <;> simp [hea, h]
    · rw [if_neg hek]
      by_cases hea : e.1 == a
      · have hka : ¬(k == a) := fun h => hek (ha e mem_cons_self hea h)
        simp [hea, hka]
      · simpa only [find?_cons, Bool.eq_false_iff.mpr hea] using ih'

theorem get?_put_of_separates (hP : Separates P) (v : α) (ht : ∀ b ∈ t.keys, P b) (hk : P k)
    (ha : P a) : (t.put k v).get? a = if k == a then some v else t.get? a := by
  have hentry : ∀ e ∈ t.entries, P e.1 := fun e he => ht e.1 (mem_map_of_mem he)
  refine find?_putList v t.entries (fun e he hek => ?_) fun e he hea hka => ?_
  · rw [(hP _ _ (hentry e he) hk).mp hek]
  · exact (hP _ _ (hentry e he) hk).mpr
      (((hP _ _ (hentry e he) ha).mp hea).trans ((hP _ _ hk ha).mp hka).symm)

def Isolated (a : κ) : Prop := ∀ k, (k == a ↔ k = a) ∧ (a == k ↔ k = a)

theorem get?_put_of_isolated (ha : Isolated a) (t : Table κ α) (k : κ) (v : α) :
    (t.put k v).get? a = if k == a then some v else t.get? a := by
  refine find?_putList v t.entries (fun e _ hek => ?_) fun e _ hea hka => ?_
  · rw [Bool.eq_iff_iff, (ha _).1, (ha _).1]
    refine ⟨fun hea => (ha k).2.mp (hea ▸ hek), fun hka => (ha e.1).1.mp (hka ▸ hek)⟩
  · rw [(ha _).1] at hea hka
    rw [hea, hka]
    exact (ha a).1.mpr rfl

theorem eraseDups_concat (ks : List κ) (k : κ) :
    (ks ++ [k]).eraseDups
      = if ks.eraseDups.contains k then ks.eraseDups else ks.eraseDups ++ [k] := by
  -- The induction goes along the keys, for any list of those that were kept before.
  suffices hloop : ∀ bs, eraseDupsBy.loop (· == ·) (ks ++ [k]) bs
      = if (eraseDupsBy.loop (· == ·) ks bs).contains k
        then eraseDupsBy.loop (· == ·) ks bs
        else eraseDupsBy.loop (· == ·) ks bs ++ [k] from hloop []
  induction ks with
  | nil =>
    intro bs
    rw [contains_eq_any_beq]
    simp only [nil_append, eraseDupsBy.loop]
    split <;> simp_all
  | cons a ks ih =>
    intro bs
    have hstep (ks : List κ) : eraseDupsBy.loop (· == ·) (a :: ks) bs
        = eraseDupsBy.loop (· == ·) ks (if bs.any (a == ·) then bs else a :: bs) := by
      rw [eraseDupsBy.loop]
      cases bs.any (a == ·) <;> rfl
    rw [cons_append, hstep, hstep]
    exact ih _

theorem mem_of_mem_eraseDups (h : a ∈ ks.eraseDups) : a ∈ ks := by
  induction ks using reverseRecOn with
  | nil => exact h
  | append_singleton ks k ih =>
    rw [eraseDups_concat] at h
    split at h
    · exact mem_append_left _ (ih h)
    · exact mem_append.mpr ((mem_append.mp h).imp_left ih)

theorem find?_eraseDups {p : κ → Bool} (hp : ∀ a ∈ ks, ∀ b ∈ ks, a == b → p a = p b) :
    ks.eraseDups.find? p = ks.find? p := by
  induction ks using reverseRecOn with
  | nil => rfl
  | append_singleton ks k ih =>
    have ih := ih fun a ha b hb =>
      hp a (mem_append_left _ ha) b (mem_append_left _ hb)
    rw [eraseDups_concat, find?_append, ← ih]
    split
    · rename_i hk
      obtain ⟨b, hb, hbeq⟩ := contains_iff_exists_mem_beq.mp hk
      have hsame := hp k (by simp) b (by simp [mem_of_mem_eraseDups hb]) hbeq
      cases hfind : ks.eraseDups.find? p with
      | some a => rfl
      | none => simp [hsame, find?_eq_none.mp hfind b hb]
    · rw [find?_append]

theorem mem_eraseDups (ha : ∀ k ∈ ks, a == k → k = a) (h : a ∈ ks) : a ∈ ks.eraseDups := by
  induction ks using reverseRecOn with
  | nil => exact h
  | append_singleton ks k ih =>
    obtain ⟨hks, -⟩ := forall_mem_append.mp ha
    have h := (mem_append.mp h).imp (ih hks) mem_singleton.mp
    rw [eraseDups_concat]
    split
    · refine h.elim id ?_
      rintro rfl
      obtain ⟨b, hb, hbeq⟩ := contains_iff_exists_mem_beq.mp ‹_›
      exact hks b (mem_of_mem_eraseDups hb) hbeq ▸ hb
    · exact mem_append.mpr (h.imp_right mem_singleton.mpr)

theorem nodup_eraseDups (hP : Separates P) (hks : ∀ k ∈ ks, P k) : ks.eraseDups.Nodup := by
  induction ks using reverseRecOn with
  | nil => exact nodup_nil
  | append_singleton ks k ih =>
    obtain ⟨hks, hk⟩ := forall_mem_append.mp hks
    have hk := hk k mem_cons_self
    rw [eraseDups_concat]
    split
    · exact ih hks
    · refine nodup_append.mpr ⟨ih hks, pairwise_singleton _ k, fun a ha b hb hab => ‹¬_› ?_⟩
      obtain rfl := hab.trans (mem_singleton.mp hb)
      exact contains_iff_exists_mem_beq.mpr ⟨a, ha, (hP a a hk hk).mpr rfl⟩

theorem mem_eraseDups_of_isolated (ha : Isolated a) (h : a ∈ ks) : a ∈ ks.eraseDups :=
  mem_eraseDups (fun k _ hbeq => (ha k).2.mp hbeq) h

theorem contains_iff_of_separates (hP : Separates P) (hks : ∀ b ∈ ks, P b) (ha : P a) :
    ks.contains a ↔ a ∈ ks := by
  rw [contains_iff_exists_mem_beq]
  constructor
  · rintro ⟨b, hb, hbeq⟩
    exact (hP a b ha (hks b hb)).mp hbeq ▸ hb
  · exact fun h => ⟨a, h, (hP a a ha ha).mpr rfl⟩

theorem contains_iff_mem_keys_of_beq (h : ∀ k, k = a ∨ k ∈ t.keys → (k == a ↔ k = a)) :
    t.contains a ↔ a ∈ t.keys := by
  rw [contains, any_eq_true]
  constructor
  · rintro ⟨e, he, hbeq⟩
    have hmem : e.1 ∈ t.keys := mem_map_of_mem he
    exact (h e.1 (.inr hmem)).mp hbeq ▸ hmem
  · intro hmem
    obtain ⟨e, he, rfl⟩ := mem_map.mp hmem
    exact ⟨e, he, (h e.1 (.inl rfl)).mpr rfl⟩

theorem contains_iff_of_isolated (ha : Isolated a) (t : Table κ α) :
    t.contains a ↔ a ∈ t.keys :=
  contains_iff_mem_keys_of_beq fun k _ => (ha k).1

theorem contains_iff_mem_keys (hP : Separates P) (ht : ∀ b ∈ t.keys, P b) (ha : P a) :
    t.contains a ↔ a ∈ t.keys :=
  contains_iff_mem_keys_of_beq fun k hk => hP k a (hk.elim (· ▸ ha) (ht k)) ha

theorem pairwise_keys_put (h : t.keys.Pairwise fun a b => ¬(a == b)) (k : κ) (v : α) :
    (t.put k v).keys.Pairwise fun a b => ¬(a == b) := by
  rw [keys_put]
  split
  · exact h
  · refine pairwise_append.mpr ⟨h, pairwise_singleton _ k, fun a ha b hb => ?_⟩
    obtain rfl := mem_singleton.mp hb
    obtain ⟨e, he, rfl⟩ := mem_map.mp ha
    exact fun hbeq => ‹¬t.contains b› (any_eq_true.mpr ⟨e, he, hbeq⟩)

theorem keys_putNew (t : Table κ α) (k : κ) (v : α) :
    (t.putNew k v).keys = if t.contains k then t.keys else t.keys ++ [k] := by
  unfold putNew
  split
  · rfl
  · rw [keys_put, if_neg ‹_›]

theorem pairwise_keys_putNew (h : t.keys.Pairwise fun a b => ¬(a == b)) (k : κ) (v : α) :
    (t.putNew k v).keys.Pairwise fun a b => ¬(a == b) := by
  unfold putNew
  split
  · exact h
  · exact pairwise_keys_put h k v

theorem mem_entries_putNew {e : κ × α} (h : e ∈ (t.putNew k v).entries) :
    e ∈ t.entries ∨ e = (k, v) := by
  unfold putNew at h
  split at h
  · exact .inl h
  · rename_i hnew
    rcases mem_entries_put h with h | h | ⟨w, hbeq, hw, -⟩
    · exact .inl h
    · exact .inr h
    · exact absurd (any_eq_true.mpr ⟨_, hw, hbeq⟩) hnew

omit [BEq κ] in
theorem keys_mapValues {β : Type} (f : α → β) (t : Table κ α) : (t.mapValues f).keys = t.keys := by
  unfold keys mapValues
  rw [map_map]
  rfl

theorem ofList_concat (es : List (κ × α)) (e : κ × α) :
    ofList (es ++ [e]) = (ofList es).put e.1 e.2 := foldl_append

theorem pairwise_keys_ofList (es : List (κ × α)) :
    (ofList es).keys.Pairwise fun a b => ¬(a == b) := by
  induction es using reverseRecOn with
  | nil => exact Pairwise.nil
  | append_singleton es e ih => exact ofList_concat es e ▸ pairwise_keys_put ih e.1 e.2

theorem mem_values_ofList {es : List (κ × α)} (h : v ∈ (ofList es).values) :
    v ∈ es.map Prod.snd := by
  induction es using reverseRecOn with
  | nil => exact h
  | append_singleton es e ih =>
    rw [ofList_concat] at h
    rw [map_append, mem_append]
    exact (mem_values_put h).imp ih mem_singleton.mpr

theorem get?_ofList_of_isolated (ha : Isolated a) (es : List (κ × α)) :
    (∀ v, (ofList es).get? a = some v → (a, v) ∈ es) ∧
      (a ∈ es.map Prod.fst → ((ofList es).get? a).isSome) := by
  induction es using reverseRecOn with
  | nil => exact ⟨nofun, nofun⟩
  | append_singleton es e ih =>
    rw [ofList_concat, get?_put_of_isolated ha, map_append, mem_append]
    by_cases hkey : e.1 == a
    · rw [if_pos hkey]
      refine ⟨fun v hv => mem_append_right _ ?_, fun _ => rfl⟩
      cases hv
      exact (ha e.1).1.mp hkey ▸ mem_singleton_self e
    · rw [if_neg hkey]
      refine ⟨fun v hv => mem_append_left _ (ih.1 v hv), fun h => ih.2 (h.resolve_right ?_)⟩
      exact fun heq => hkey ((ha e.1).1.mpr (mem_singleton.mp heq).symm)

theorem get?_of_mem_entries (h : t.keys.Pairwise fun a b => ¬(a == b)) (ha : a == a)
    (hmem : (a, v) ∈ t.entries) : t.get? a = some v := by
  obtain ⟨es⟩ := t
  have hkeys : (es.map Prod.fst).Pairwise fun a b => ¬(a == b) := h
  show (es.find? fun e => e.1 == a).map Prod.snd = some v
  replace hmem : (a, v) ∈ es := hmem
  clear h
  induction es with
  | nil => exact absurd hmem not_mem_nil
  | cons e es ih =>
    rw [map_cons, pairwise_cons] at hkeys
    rcases mem_cons.mp hmem with rfl | hmem
    · simp [ha]
    · have hea : (e.1 == a) = false :=
        Bool.eq_false_iff.mpr (hkeys.1 a (mem_map_of_mem (f := Prod.fst) hmem))
      rw [find?_cons, hea]
      exact ih hkeys.2 hmem

theorem get?_map_of_separates (hP : Separates P) (hks : ∀ k ∈ ks, P k) (f : κ → α) (ha : a ∈ ks) :
    (⟨ks.map fun k => (k, f k)⟩ : Table κ α).get? a = some (f a) := by
  have hself : a == a := (hP a a (hks a ha) (hks a ha)).mpr rfl
  have hfind : ks.find? (fun k => k == a) = some a := by
    have hsome : (ks.find? fun k => k == a).isSome := find?_isSome.mpr ⟨a, ha, hself⟩
    obtain ⟨b, hb⟩ := Option.isSome_iff_exists.mp hsome
    have hbeq := find?_some hb
    have hmem := mem_of_find?_eq_some hb
    rw [hb, (hP b a (hks b hmem) (hks a ha)).mp hbeq]
  unfold get?
  rw [find?_map]
  simp only [Function.comp_def, hfind, Option.map_some]

variable [LawfulBEq κ]

theorem get?_put (t : Table κ α) (k a : κ) (v : α) :
    (t.put k v).get? a = if k == a then some v else t.get? a :=
  get?_put_of_isolated (fun _ => ⟨beq_iff_eq, beq_iff_eq.trans eq_comm⟩) t k v

@[simp]
theorem get?_put_self (t : Table κ α) (k : κ) (v : α) : (t.put k v).get? k = some v := by
  rw [get?_put, if_pos (beq_self_eq_true k)]

theorem get?_put_of_ne (t : Table κ α) (v : α) (h : k ≠ a) : (t.put k v).get? a = t.get? a := by
  rw [get?_put, if_neg (by simpa using h)]

end Branchwise.Table
