import Branchwise.CType.Spelling
import Branchwise.Proofs.Guard.Lexemes
import Mathlib.Tactic

/-!
# Canonical spellings

The canonical spelling of a type is written from the pieces of a spelling: its words, its stars and
its array suffixes.  Read again it has just these pieces, since a word ends at the blank, the star
or the bracket behind it, and an array suffix at its first closing bracket.  So the canonical
spelling of a canonical spelling is the same text, and the functions on types, which look at these
pieces and not at the qualifiers, do not tell a spelling from its canonical form.
-/

namespace Branchwise

open List

open Guard (Stops IsIdentifier stops_cons)

namespace SpellingPiece

variable {inner rest cs : List Char} {fuel : Nat}

/-! ## Reading pieces -/

theorem eq_append_of_closeBracket {r : List Char}
    (h : closeBracket r = some (inner, rest)) : r = inner ++ ']' :: rest ∧ ']' ∉ inner := by
  fun_induction closeBracket r generalizing inner with
  | case1 => cases h
  | case2 r =>
    cases h
    exact ⟨rfl, not_mem_nil⟩
  | case3 c r hc ih =>
    obtain ⟨⟨a, b⟩, hab, heq⟩ := Option.map_eq_some_iff.mp h
    obtain ⟨rfl, rfl⟩ := Prod.mk.inj heq
    obtain ⟨rfl, hmem⟩ := ih hab
    refine ⟨rfl, fun hin => ?_⟩
    rcases mem_cons.mp hin with rfl | hin
    · exact hc rfl
    · exact hmem hin

theorem closeBracket_append (h : ']' ∉ inner) (rest : List Char) :
    closeBracket (inner ++ ']' :: rest) = some (inner, rest) := by
  induction inner with
  | nil => rfl
  | cons c inner ih =>
    rw [mem_cons, not_or] at h
    have hc : c ≠ ']' := fun heq => h.1 heq.symm
    rw [cons_append, closeBracket, ih h.2]
    · rfl
    · exact hc

theorem scan_eq_of_le {fuel' : Nat} (h : cs.length ≤ fuel)
    (h' : cs.length ≤ fuel') : scan fuel cs = scan fuel' cs := by
  induction fuel generalizing cs fuel' with
  | zero =>
    obtain rfl := length_eq_zero_iff.mp (Nat.le_zero.mp h)
    cases fuel' <;> rfl
  | succ fuel ih =>
    cases cs with
    | nil => cases fuel' <;> rfl
    | cons c r =>
      obtain ⟨fuel', rfl⟩ := Nat.exists_eq_add_one_of_ne_zero (n := fuel') (by
        rintro rfl
        simp at h')
      rw [length_cons, Nat.add_le_add_iff_right] at h h'
      have hrest (rest : List Char) (hle : rest.length ≤ r.length) :
          scan fuel rest = scan fuel' rest := ih (Nat.le_trans hle h) (Nat.le_trans hle h')
      have hdrop := hrest (r.drop (r.takeWhile Text.isNameChar).length) (by simp)
      rw [scan, scan, hrest r (Nat.le_refl _)]
      dsimp only
      rw [hdrop]
      cases hclose : closeBracket r with
      | none => rfl
      | some p =>
        have hlen : p.2.length ≤ r.length := by
          rw [(eq_append_of_closeBracket hclose).1, length_append, length_cons]
          omega
        dsimp only
        rw [hrest _ hlen]

def read (cs : List Char) : List SpellingPiece := scan cs.length cs

theorem scan_eq_read (h : cs.length ≤ fuel) : scan fuel cs = read cs :=
  scan_eq_of_le h (Nat.le_refl _)

theorem ofSpelling_ofList (cs : List Char) : ofSpelling (String.ofList cs) = read cs := by
  rw [ofSpelling, read, String.toList_ofList, String.length_ofList]

theorem read_star (r : List Char) : read ('*' :: r) = star :: read r := rfl

theorem read_blank (r : List Char) : read (' ' :: r) = read r := rfl

theorem read_array (h : ']' ∉ inner) (rest : List Char) :
    read ('[' :: (inner ++ ']' :: rest)) = array ('[' :: (inner ++ [']'])) :: read rest := by
  rw [read, length_cons, scan, closeBracket_append h]
  simp only [show ('[' : Char) ≠ '*' by decide, if_false, if_true]
  rw [scan_eq_read (by simp; omega)]

theorem read_word {w : List Char} (hw : IsIdentifier w) (hrest : Stops Text.isNameChar rest) :
    read (w ++ rest) = word (String.ofList w) :: read rest := by
  obtain ⟨c, tail, rfl, hc, htail⟩ := hw
  have hstar : c ≠ '*' := by rintro rfl; exact absurd hc (by decide)
  have hbracket : c ≠ '[' := by rintro rfl; exact absurd hc (by decide)
  rw [cons_append, read, length_cons, scan, if_neg hstar, if_neg hbracket, if_pos hc,
    hrest.takeWhile_append htail]
  dsimp only
  rw [drop_left, scan_eq_read (by simp)]

def IsProper : SpellingPiece → Prop
  | star => True
  | array a => ∃ inner, a = '[' :: (inner ++ [']']) ∧ ']' ∉ inner
  | word w => IsIdentifier w.toList

theorem isProper_of_mem_scan {p : SpellingPiece} (h : p ∈ scan fuel cs) : p.IsProper := by
  induction fuel generalizing cs with
  | zero => cases h
  | succ fuel ih =>
    cases cs with
    | nil => cases h
    | cons c r =>
      rw [scan] at h
      split at h
      · rcases mem_cons.mp h with rfl | h
        · trivial
        · exact ih h
      · split at h
        · split at h
          · rename_i hclose
            rcases mem_cons.mp h with rfl | h
            · exact ⟨_, rfl, (eq_append_of_closeBracket hclose).2⟩
            · exact ih h
          · exact ih h
        · split at h
          · rename_i hc
            rcases mem_cons.mp h with rfl | h
            · refine ⟨c, _, String.toList_ofList, hc, fun d hd => ?_⟩
              exact Guard.mem_takeWhile hd
            · exact ih h
          · exact ih h

/-! ## Reading a canonical text -/

def spell (ws : List (List Char)) (stars : Nat) (arrays : List (List Char)) : List Char :=
  [' '].intercalate ws ++
    ((if stars = 0 then [] else ' ' :: .replicate stars '*') ++ arrays.flatten)

theorem read_flatten {arrays : List (List Char)} (h : ∀ a ∈ arrays, (array a).IsProper) :
    read arrays.flatten = arrays.map array := by
  induction arrays with
  | nil => rfl
  | cons a arrays ih =>
    rw [forall_mem_cons] at h
    obtain ⟨⟨inner, rfl, hinner⟩, hrest⟩ := h
    rw [flatten_cons, cons_append, append_assoc, singleton_append,
      read_array hinner, ih hrest, map_cons]

theorem read_replicate (n : Nat) (rest : List Char) :
    read (.replicate n '*' ++ rest) = .replicate n star ++ read rest := by
  induction n with
  | zero => rfl
  | succ n ih =>
    rw [replicate_succ, cons_append, read_star, ih, replicate_succ, cons_append]

theorem read_stars (n : Nat) (rest : List Char) :
    read ((if n = 0 then [] else ' ' :: .replicate n '*') ++ rest) =
      .replicate n star ++ read rest := by
  split
  · subst n
    rfl
  · rw [cons_append, read_blank, read_replicate]

theorem read_words {ws : List (List Char)} (hws : ∀ w ∈ ws, IsIdentifier w)
    (hrest : Stops Text.isNameChar rest) :
    read ([' '].intercalate ws ++ rest) =
      (ws.map fun w => word (String.ofList w)) ++ read rest := by
  induction ws with
  | nil => rfl
  | cons w ws ih =>
    rw [forall_mem_cons] at hws
    cases ws with
    | nil =>
      rw [intercalate_singleton, read_word hws.1 hrest]
      rfl
    | cons w' ws =>
      rw [intercalate_cons_cons, append_assoc, append_assoc, singleton_append,
        read_word hws.1 (stops_cons (by decide)), read_blank, ih hws.2]
      rfl

theorem read_spell {ws : List (List Char)} (hws : ∀ w ∈ ws, IsIdentifier w) (stars : Nat)
    {arrays : List (List Char)} (harrays : ∀ a ∈ arrays, (array a).IsProper) :
    read (spell ws stars arrays) =
      (ws.map fun w => word (String.ofList w)) ++ (.replicate stars star ++ arrays.map array) := by
  have hstops : Stops Text.isNameChar
      ((if stars = 0 then [] else ' ' :: .replicate stars '*') ++ arrays.flatten) := by
    split
    · cases arrays with
      | nil => exact .nil
      | cons a arrays =>
        obtain ⟨inner, rfl, -⟩ := harrays a mem_cons_self
        exact stops_cons (by decide)
    · exact stops_cons (by decide)
  rw [spell, read_words hws hstops, read_stars, read_flatten harrays]

/-! ## Whole pieces in front of another text -/

/-- A text is made of whole pieces and of characters that are skipped, where the other text
follows. -/
inductive Parted (v : List Char) : List Char → Prop
  | nil : Parted v []
  | star {u : List Char} (h : Parted v u) : Parted v ('*' :: u)
  | array {inner u : List Char} (hinner : ']' ∉ inner) (h : Parted v u) :
      Parted v ('[' :: (inner ++ ']' :: u))
  | word {w u : List Char} (hw : IsIdentifier w) (hend : Stops Text.isNameChar (u ++ v))
      (h : Parted v u) : Parted v (w ++ u)
  | skip {c : Char} {u : List Char} (hstar : c ≠ '*') (hname : Text.isNameStart c = false)
      (hopen : c = '[' → ']' ∉ u ++ v) (h : Parted v u) : Parted v (c :: u)

theorem closeBracket_eq_none {r : List Char} (h : ']' ∉ r) : closeBracket r = none := by
  cases hclose : closeBracket r with
  | none => rfl
  | some p =>
    rw [(eq_append_of_closeBracket hclose).1] at h
    simp at h

theorem read_skip {c : Char} {r : List Char} (hstar : c ≠ '*') (hname : Text.isNameStart c = false)
    (hopen : c = '[' → ']' ∉ r) : read (c :: r) = read r := by
  rw [read, length_cons, scan, if_neg hstar, hname]
  split
  · rename_i hc
    rw [closeBracket_eq_none (hopen hc)]
    rfl
  · rfl

/-- Whole pieces stay as they are when another text follows. -/
theorem Parted.exists_pieces {u v : List Char} (h : Parted v u) :
    ∃ ps, ∀ w, (Stops Text.isNameChar v → Stops Text.isNameChar w) → (']' ∉ v → ']' ∉ w) →
      read (u ++ w) = ps ++ read w := by
  induction h with
  | nil => exact ⟨[], fun _ _ _ => rfl⟩
  | star _ ih =>
    obtain ⟨ps, hps⟩ := ih
    refine ⟨.star :: ps, fun w hstops hclose => ?_⟩
    rw [cons_append, read_star, hps w hstops hclose, cons_append]
  | @array inner u hinner _ ih =>
    obtain ⟨ps, hps⟩ := ih
    refine ⟨.array ('[' :: (inner ++ [']'])) :: ps, fun w hstops hclose => ?_⟩
    simp only [cons_append, append_assoc]
    rw [read_array hinner, hps w hstops hclose]
  | @word x u hx hend _ ih =>
    obtain ⟨ps, hps⟩ := ih
    refine ⟨.word (String.ofList x) :: ps, fun w hstops hclose => ?_⟩
    have hend' : Stops Text.isNameChar (u ++ w) := by
      cases u with
      | nil => exact hstops hend
      | cons c u => exact stops_cons (hend c _ rfl)
    rw [append_assoc, read_word hx hend', hps w hstops hclose, cons_append]
  | skip hstar hname hopen _ ih =>
    obtain ⟨ps, hps⟩ := ih
    refine ⟨ps, fun w hstops hclose => ?_⟩
    rw [cons_append, read_skip hstar hname fun hc => ?_, hps w hstops hclose]
    have hnot := hopen hc
    rw [mem_append, not_or] at hnot ⊢
    exact ⟨hnot.1, hclose hnot.2⟩

end SpellingPiece

namespace Spelling

open SpellingPiece

/-! ## Canonical spellings -/

theorem toList_normalize (s : String) :
    (normalize s).toList = spell ((wordsOf (pieces s)).map String.toList) (starsOf (pieces s))
      (arraysOf (pieces s)) := by
  have harrays : (String.join ((arraysOf (pieces s)).map String.ofList)).toList =
      (arraysOf (pieces s)).flatten := by
    rw [String.toList_join, flatMap_map, flatten_eq_flatMap]
    simp only [String.toList_ofList]
    rfl
  unfold normalize spell
  simp only [String.toList_append, Text.join, harrays]
  split <;> simp

theorem isProper_of_mem_pieces {s : String} {p : SpellingPiece} (h : p ∈ pieces s) : p.IsProper :=
  isProper_of_mem_scan ((mem_filter.mp h).1)

theorem mem_wordsOf {ps : List SpellingPiece} {w : String} : w ∈ wordsOf ps ↔ word w ∈ ps := by
  rw [wordsOf, mem_filterMap]
  constructor
  · rintro ⟨p, hp, heq⟩
    cases p with
    | word v =>
      cases heq
      exact hp
    | star | array => cases heq
  · exact fun h => ⟨_, h, rfl⟩

theorem isProper_of_mem_arraysOf {s : String} {a : List Char} (h : a ∈ arraysOf (pieces s)) :
    (array a).IsProper ∧ a.filter (· ≠ ' ') = a := by
  obtain ⟨p, hp, heq⟩ := mem_filterMap.mp h
  cases p with
  | star | word => cases heq
  | array b =>
    cases heq
    obtain ⟨inner, rfl, hinner⟩ := isProper_of_mem_pieces hp
    refine ⟨⟨inner.filter (· ≠ ' '), ?_, fun hmem => hinner (mem_filter.mp hmem).1⟩, ?_⟩
    · simp
    · rw [filter_filter]
      simp

theorem pieces_normalize (s : String) :
    pieces (normalize s) = (wordsOf (pieces s)).map word ++
      (.replicate (starsOf (pieces s)) star ++ (arraysOf (pieces s)).map array) := by
  have hwords : ∀ w ∈ (wordsOf (pieces s)).map String.toList, IsIdentifier w := by
    intro w hw
    obtain ⟨v, hv, rfl⟩ := mem_map.mp hw
    exact isProper_of_mem_pieces (mem_wordsOf.mp hv)
  have hread : ofSpelling (normalize s) = (wordsOf (pieces s)).map word ++
      (.replicate (starsOf (pieces s)) star ++ (arraysOf (pieces s)).map array) := by
    rw [← String.ofList_toList (s := normalize s), ofSpelling_ofList, toList_normalize,
      read_spell hwords _ fun a ha => (isProper_of_mem_arraysOf ha).1, map_map]
    simp only [Function.comp_def, String.ofList_toList]
  -- none of the words is a qualifier, since those were left out before
  rw [pieces, hread, filter_eq_self]
  intro p hp
  rcases mem_append.mp hp with hp | hp
  · obtain ⟨w, hw, rfl⟩ := mem_map.mp hp
    exact (mem_filter.mp (mem_wordsOf.mp hw)).2
  · rcases mem_append.mp hp with hp | hp
    · rw [(mem_replicate.mp hp).2]
      rfl
    · obtain ⟨a, -, rfl⟩ := mem_map.mp hp
      rfl

section Parts

variable (ws : List String) (stars : Nat) (arrays : List (List Char))

theorem wordsOf_parts :
    wordsOf (ws.map word ++ (.replicate stars star ++ arrays.map array)) = ws := by
  simp only [wordsOf, filterMap_append, filterMap_map, Function.comp_def,
    filterMap_some, filterMap_replicate_of_none,
    append_right_eq_self, filterMap_eq_nil_iff, implies_true]

theorem starsOf_parts :
    starsOf (ws.map word ++ (.replicate stars star ++ arrays.map array)) = stars := by
  have hwords : (ws.map word).filter (· = star) = [] := by simp
  have harrays : (arrays.map array).filter (· = star) = [] := by simp
  rw [starsOf, filter_append, filter_append, harrays]
  simp

theorem arraysOf_parts :
    arraysOf (ws.map word ++ (.replicate stars star ++ arrays.map array)) =
      arrays.map fun a => a.filter (· ≠ ' ') := by
  simp only [arraysOf, filterMap_append, filterMap_map,
    Function.comp_def, filterMap_replicate_of_none, filterMap_eq_map', nil_append,
    append_left_eq_self, filterMap_eq_nil_iff, implies_true]

end Parts

theorem normalize_normalize (s : String) : normalize (normalize s) = normalize s := by
  have harrays : (arraysOf (pieces s)).map (fun a => a.filter (· ≠ ' ')) = arraysOf (pieces s) := by
    rw [map_congr_left fun a ha => (isProper_of_mem_arraysOf ha).2, map_id']
  rw [← String.toList_inj, toList_normalize, toList_normalize, pieces_normalize, wordsOf_parts,
    starsOf_parts, arraysOf_parts, harrays]

/-! ## What the functions look at -/

theorem baseOfWords_perm {ws ws' : List String} (h : ws.Perm ws') :
    baseOfWords ws = baseOfWords ws' := by
  simp only [baseOfWords, h.count_eq, h.contains_eq, h.length_eq]

theorem mem_star_iff {ps : List SpellingPiece} : .star ∈ ps ↔ starsOf ps ≠ 0 := by
  rw [starsOf, Ne, length_eq_zero_iff, filter_eq_nil_iff]
  simp

theorem starsOf_pieces (s : String) : starsOf (pieces s) = pointerDepth s := by
  rw [starsOf, pieces, filter_filter, pointerDepth, starsOf]
  congr 1
  refine filter_congr fun p _ => ?_
  cases p <;> simp [isQualifier]

theorem base?_congr {s t : String} (hstars : pointerDepth s = pointerDepth t)
    (hwords : (wordsOf (pieces s)).Perm (wordsOf (pieces t))) : base? s = base? t := by
  have hstar : (pieces s).contains .star = (pieces t).contains .star := by
    rw [Bool.eq_iff_iff, contains_iff_mem, contains_iff_mem, mem_star_iff, mem_star_iff,
      starsOf_pieces, starsOf_pieces, hstars]
  have hempty : (wordsOf (pieces s)).isEmpty = (wordsOf (pieces t)).isEmpty := by
    rw [Bool.eq_iff_iff, isEmpty_iff_length_eq_zero, isEmpty_iff_length_eq_zero, hwords.length_eq]
  simp only [base?, hstar, hempty, hwords.any_eq, baseOfWords_perm hwords]

theorem isPointer_iff (s : String) : isPointer s ↔ pointerDepth s ≠ 0 := by
  rw [pointerDepth, ← mem_star_iff, isPointer, any_eq_true]
  simp

theorem isArray_eq (s : String) : isArray s = !(arraysOf (pieces s)).isEmpty := by
  unfold isArray pieces
  induction ofSpelling s with
  | nil => rfl
  | cons p ps ih =>
    cases p with
    | star => exact ih
    | array a => rfl
    | word w =>
      rw [filter_cons]
      split
      · exact ih
      · exact ih

theorem pointerDepth_normalize (s : String) : pointerDepth (normalize s) = pointerDepth s := by
  rw [← starsOf_pieces, pieces_normalize, starsOf_parts, starsOf_pieces]

theorem base?_normalize (s : String) : base? (normalize s) = base? s := by
  refine base?_congr (pointerDepth_normalize s) ?_
  rw [pieces_normalize, wordsOf_parts]

/-! ## Qualifiers -/

/-- One spelling is the other with a qualifier put between two of its pieces. -/
def Qualifies (s t : String) : Prop :=
  ∃ u v q, s = u ++ v ∧ t = u ++ " " ++ q ++ " " ++ v ∧ Parted v.toList u.toList ∧ q ∈ qualifiers

theorem isIdentifier_of_mem_qualifiers {q : String} (h : q ∈ qualifiers) :
    IsIdentifier q.toList := by
  have hall : qualifiers.all fun q => Guard.identifier? q.toList == some (q.toList, []) := rfl
  exact (Guard.isIdentifier_of_identifier? (beq_iff_eq.mp (all_eq_true.mp hall q h))).1

theorem pieces_of_qualifies {s t : String} (h : Qualifies s t) : pieces t = pieces s := by
  obtain ⟨u, v, q, rfl, rfl, hparted, hq⟩ := h
  have hword := isIdentifier_of_mem_qualifiers hq
  obtain ⟨ps, hps⟩ := hparted.exists_pieces
  have hs : ofSpelling (u ++ v) = ps ++ read v.toList := by
    rw [← hps _ id id, ← String.toList_append, ← ofSpelling_ofList, String.ofList_toList]
  have ht : ofSpelling (u ++ " " ++ q ++ " " ++ v) = ps ++ .word q :: read v.toList := by
    have hread := hps (' ' :: (q.toList ++ ' ' :: v.toList)) (fun _ => stops_cons (by decide))
      fun hnot => by
        have hclose : ']' ∉ q.toList := fun hmem => absurd (hword.isNameChar _ hmem) (by decide)
        simp [hnot, hclose]
    rw [read_blank, read_word hword (stops_cons (by decide)), read_blank,
      String.ofList_toList] at hread
    rw [← hread, ← ofSpelling_ofList]
    congr 1
    rw [← String.toList_inj]
    simp
  have hdrop : isQualifier (.word q) := contains_iff_mem.mpr hq
  simp [pieces, hs, ht, filter_append, hdrop]

/-- Normalising twice is normalising once, and the functions on types do not tell a spelling from
its canonical form.  Neither qualifiers between its pieces nor the order of its pieces change the
base type that a spelling names. -/
theorem normalize_keeps_type (s : String) :
    normalize (normalize s) = normalize s ∧
      (base? (normalize s) = base? s ∧ sort (normalize s) = sort s ∧
        isPointer (normalize s) = isPointer s ∧ pointerDepth (normalize s) = pointerDepth s ∧
        isArray (normalize s) = isArray s) ∧
      (∀ t, Relation.ReflTransGen Qualifies s t → base? t = base? s) ∧
      ∀ t, (ofSpelling t).Perm (ofSpelling s) → base? t = base? s := by
  refine ⟨normalize_normalize s, ⟨base?_normalize s, ?_, ?_, pointerDepth_normalize s, ?_⟩, ?_,
    fun t h => base?_congr (h.filter _).length_eq ((h.filter _).filterMap _)⟩
  · rw [sort, sort, base?_normalize]
  · rw [Bool.eq_iff_iff, isPointer_iff, isPointer_iff, pointerDepth_normalize]
  · rw [isArray_eq, isArray_eq, pieces_normalize, arraysOf_parts, isEmpty_map]
  · intro t h
    induction h with
    | refl => rfl
    | tail _ hstep ih => rw [← ih, base?, base?, pieces_of_qualifies hstep]

end Spelling

end Branchwise
