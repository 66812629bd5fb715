import Branchwise.Proofs.Guard.Grammar

/-!
# The lexemes are those of the grammar

Each scanner takes the longest lexeme of its class, so it finds a lexeme of the grammar again when
what follows is no part of a longer one.  Where a text has a prefix in several classes, the
character after the shared part decides.
-/

namespace Branchwise.Guard

open List Number Text

open Text (isWhiteSpace isLiteralDigit isNameStart isNameChar isWord)

variable {s rest x r digits suffix : List Char} {c : Char} {p : Char → Bool} {e : Expr}
variable {k : Nat}

/-! ## Runs of characters -/

/-- A run of characters of a class ends where the rest of a text begins. -/
def Stops (p : Char → Bool) (rest : List Char) : Prop := ∀ c r, rest = c :: r → p c = false

theorem Stops.nil : Stops p [] := fun _ _ h => absurd h nofun

theorem stops_cons (h : p c = false) : Stops p (c :: r) := by
  intro d t hd
  obtain ⟨rfl, -⟩ := cons.inj hd
  exact h

theorem Stops.mono {q : Char → Bool} (h : Stops q rest) (hpq : ∀ c, p c → q c) :
    Stops p rest := by
  intro c r hc
  cases hp : p c with
  | false => rfl
  | true =>
    rw [← h c r hc]
    exact (hpq c hp).symm

theorem Stops.append (h : Stops p rest) (hs : ∀ c ∈ s, p c = false) : Stops p (s ++ rest) := by
  cases s with
  | nil => exact h
  | cons c s => exact stops_cons (hs c mem_cons_self)

/-- A run that ends before the rest is taken as a whole. -/
theorem Stops.takeWhile_append (h : Stops p rest) (hs : ∀ c ∈ s, p c) :
    (s ++ rest).takeWhile p = s := by
  rw [takeWhile_append_of_pos hs]
  cases rest with
  | nil => exact append_nil s
  | cons c r =>
    rw [takeWhile_cons_of_neg (by rw [h c r rfl]; decide), append_nil]

theorem Stops.dropWhile_append (h : Stops p rest) (hs : ∀ c ∈ s, p c) :
    (s ++ rest).dropWhile p = rest := by
  rw [dropWhile_append_of_pos hs]
  cases rest with
  | nil => rfl
  | cons c r => exact dropWhile_cons_of_neg (by rw [h c r rfl]; decide)

theorem mem_takeWhile (h : c ∈ s.takeWhile p) : p c :=
  all_eq_true.1 all_takeWhile c h

theorem takeWhile_append_drop (p : Char → Bool) (s : List Char) :
    s.takeWhile p ++ s.drop (s.takeWhile p).length = s := by
  induction s with
  | nil => rfl
  | cons c s ih =>
    cases hc : p c with
    | false => rw [takeWhile_cons_of_neg (by rw [hc]; decide)]; rfl
    | true =>
      rw [takeWhile_cons_of_pos hc]
      exact congrArg (c :: ·) ih

/-! ## Classes of characters -/

theorem isWord_of_isNameChar (h : isNameChar c) : isWord c := by
  simp only [isNameChar, isNameStart, Bool.or_eq_true, Bool.and_eq_true, decide_eq_true_eq,
    beq_iff_eq] at h
  rw [isWord, if_pos (by omega)]
  simp only [Bool.or_eq_true, Bool.and_eq_true, decide_eq_true_eq, beq_iff_eq]
  omega

theorem isNameChar_of_isNameStart (h : isNameStart c) : isNameChar c := by
  rw [isNameChar, h, Bool.true_or]

theorem isNameChar_of_hexValue? (h : (hexValue? c).isSome) : isNameChar c := by
  have hrange : 48 ≤ c.toNat ∧ c.toNat ≤ 57 ∨ 65 ≤ c.toNat ∧ c.toNat ≤ 70 ∨
      97 ≤ c.toNat ∧ c.toNat ≤ 102 := by
    simp only [hexValue?, Bool.and_eq_true, decide_eq_true_eq] at h
    split at h
    · exact .inl ‹_›
    · split at h
      · exact .inr (.inl ‹_›)
      · split at h
        · exact .inr (.inr ‹_›)
        · exact absurd h (by decide)
  simp only [isNameChar, isNameStart, Bool.or_eq_true, Bool.and_eq_true, decide_eq_true_eq]
  omega

theorem isInner_of_isWord (h : isWord c) : isInner c := by
  simp only [isInner, h, Bool.true_or]

theorem isInner_of_isNameChar (h : isNameChar c) : isInner c :=
  isInner_of_isWord (isWord_of_isNameChar h)

theorem isInner_of_isLiteralDigit (h : isLiteralDigit c) : isInner c := by
  simp only [isInner, h, Bool.or_true, Bool.true_or]

theorem MayFollow.stops (h : MayFollow k rest) : Stops isInner rest :=
  fun _ _ hc => isInner_of_isDelimiter (h.isDelimiter hc)

theorem MayFollow.stops_isWord (h : MayFollow k rest) : Stops isWord rest :=
  h.stops.mono fun _ => isInner_of_isWord

theorem isLiteralDigit_of_isNameStart (h : isNameStart c) : isLiteralDigit c = false := by
  simp only [isNameStart, Bool.or_eq_true, Bool.and_eq_true, decide_eq_true_eq, beq_iff_eq] at h
  have hascii : c.toNat < 128 := by omega
  have hdigit : ¬ (48 ≤ c.toNat ∧ c.toNat ≤ 57) := by omega
  simp [isLiteralDigit, isDigit, digitValue?, hdigit, Nat.not_le.2 hascii]

def isExponentMark (c : Char) : Bool := c = 'e' || c = 'E'

def isHexMark (c : Char) : Bool := c = 'x' || c = 'X'

theorem isExponentMark_iff : isExponentMark c ↔ c ∈ ['e', 'E'] := by
  simp [isExponentMark]

theorem isHexMark_iff : isHexMark c ↔ c ∈ ['x', 'X'] := by
  simp [isHexMark]

theorem isIntSuffix_iff : isIntSuffix c ↔ c ∈ ['u', 'U', 'l', 'L'] := by
  simp [isIntSuffix, or_assoc]

theorem isRealSuffix_iff : isRealSuffix c ↔ c ∈ ['f', 'F', 'l', 'L'] := by
  simp [isRealSuffix, or_assoc]

theorem isInner_of_isExponentMark (h : isExponentMark c) : isInner c :=
  eq_true_of_mem (by decide) (isExponentMark_iff.1 h)

theorem isInner_of_isHexMark (h : isHexMark c) : isInner c :=
  eq_true_of_mem (by decide) (isHexMark_iff.1 h)

theorem isInner_of_isIntSuffix (h : isIntSuffix c) : isInner c :=
  eq_true_of_mem (by decide) (isIntSuffix_iff.1 h)

theorem isInner_of_point (h : c == '.') : isInner c := by
  simp only [isInner, h, Bool.or_true, Bool.true_or]

/-! ## Floating literals -/

theorem isLiteralDigit_eq_false_of_isExponentMark (h : isExponentMark c) :
    isLiteralDigit c = false :=
  eq_false_of_mem (by decide) (isExponentMark_iff.1 h)

theorem IsExponent.opens (h : IsExponent x) : OpensWith isExponentMark x := by
  obtain ⟨hmark, -, -, -⟩ := h
  exact ⟨_, _, rfl, isExponentMark_iff.2 (by simpa using hmark)⟩

/-- An exponent is found again, if no digit follows it. -/
theorem IsExponent.scanExponent_append (h : IsExponent x) (hrest : Stops isLiteralDigit rest) :
    scanExponent (x ++ rest) = some (x, rest) := by
  obtain @⟨mark, sign, digits, hmark, hsign, hne, hdigits⟩ := h
  have hmark' : (decide (mark = 'e') || decide (mark = 'E')) := by simpa using hmark
  obtain ⟨d, r, rfl⟩ := exists_cons_of_ne_nil hne
  have htake : (d :: (r ++ rest)).takeWhile isLiteralDigit = d :: r :=
    hrest.takeWhile_append hdigits
  have hd := hdigits d mem_cons_self
  -- By the sign: without one the digit behind the mark must not pass for it.
  rcases hsign with rfl | rfl | rfl
  · change scanExponent (mark :: d :: (r ++ rest)) = _
    rw [scanExponent, if_pos hmark', htake]
    · simp
    · rintro t ⟨rfl, -⟩
      exact absurd hd (by decide)
    · rintro t ⟨rfl, -⟩
      exact absurd hd (by decide)
  · change scanExponent (mark :: '+' :: d :: (r ++ rest)) = _
    rw [scanExponent, if_pos hmark', htake]
    simp
  · change scanExponent (mark :: '-' :: d :: (r ++ rest)) = _
    rw [scanExponent, if_pos hmark', htake]
    simp

theorem scanExponent_eq_none (h : Stops isExponentMark rest) : scanExponent rest = none := by
  cases rest with
  | nil => rfl
  | cons c r =>
    have hc : ¬ (decide (c = 'e') || decide (c = 'E')) := by
      rw [show (decide (c = 'e') || decide (c = 'E')) = false from h c r rfl]
      decide
    exact if_neg hc

/-- What is taken as an exponent is one, and stands at the front of the text. -/
theorem isExponent_of_scanExponent (h : scanExponent s = some (x, rest)) :
    IsExponent x ∧ s = x ++ rest := by
  unfold scanExponent at h
  split at h
  · rename_i mark r
    split at h
    · rename_i hmark
      split at h
      rename_i sign t hparts
      have hsign : r = sign ++ t ∧ (sign = [] ∨ sign = ['+'] ∨ sign = ['-']) := by
        split at hparts <;> obtain ⟨rfl, rfl⟩ := Prod.mk.inj hparts <;> simp
      dsimp only at h
      split at h
      · cases h
      · rename_i hne
        cases h
        refine ⟨.mk (by simpa using hmark) hsign.2 ?_ fun c hc => mem_takeWhile hc, ?_⟩
        · exact fun hnil => hne (isEmpty_iff.2 hnil)
        · rw [cons_append, append_assoc, takeWhile_append_drop, ← hsign.1]
    · cases h
  · cases h

/-- A floating number is found again, if neither a digit nor an exponent follows it. -/
theorem IsReal.scanReal_append (h : IsReal s) (hdigit : Stops isLiteralDigit rest)
    (hmark : Stops isExponentMark rest) : scanReal (s ++ rest) = some (s, rest) := by
  have hdot : ∀ r, Stops isLiteralDigit ('.' :: r) := fun r => stops_cons (by decide)
  have hexp : ∀ {x : List Char}, IsExponent x → Stops isLiteralDigit (x ++ rest) := by
    intro x hx
    obtain ⟨c, r, rfl, hc⟩ := hx.opens
    exact stops_cons (isLiteralDigit_eq_false_of_isExponentMark hc)
  cases h with
  | @point whole fraction exponent hwhole hfraction hne hexponent =>
    have hwholeTake := (hdot ((fraction ++ exponent) ++ rest)).takeWhile_append hwhole
    have hnonempty : (whole.isEmpty && fraction.isEmpty) = false := by
      rcases hne with h | h <;> simp [h]
    rw [append_assoc, cons_append, scanReal, hwholeTake]
    rcases hexponent with rfl | hexponent
    · rw [append_nil]
      simp only [hdigit.takeWhile_append hfraction, hnonempty, drop_left,
        scanExponent_eq_none hmark, Bool.false_eq_true, if_false]
    · rw [append_assoc]
      simp only [(hexp hexponent).takeWhile_append hfraction, hnonempty, drop_left,
        hexponent.scanExponent_append hdigit, Bool.false_eq_true, if_false, append_assoc,
        cons_append]
  | @exponent whole exponent hwhole hne hexponent =>
    have hwholeTake := (hexp hexponent).takeWhile_append hwhole
    have hscan := hexponent.scanExponent_append hdigit
    rw [append_assoc, scanReal, hwholeTake, drop_left]
    obtain ⟨c, r, rfl, hc⟩ := hexponent.opens
    -- An exponent does not start with a point.
    split
    · rename_i hpoint
      obtain ⟨rfl, -⟩ := cons.inj hpoint
      exact absurd hc (by decide)
    · rw [if_neg (by simpa using hne), hscan]
      rfl

/-- Digits alone are no floating number. -/
theorem scanReal_eq_none (hdigits : ∀ c ∈ digits, isLiteralDigit c)
    (hrest : Stops isLiteralDigit rest) (hpoint : Stops (· == '.') rest)
    (hmark : digits ≠ [] → Stops isExponentMark rest) : scanReal (digits ++ rest) = none := by
  rw [scanReal, hrest.takeWhile_append hdigits, drop_left]
  split
  · exact absurd (hpoint _ _ rfl) (by decide)
  · by_cases hne : digits = []
    · rw [if_pos (isEmpty_iff.2 hne)]
    · rw [if_neg (by simpa using hne), scanExponent_eq_none (hmark hne)]
      rfl

/-- What is taken as a floating number is one. -/
theorem isReal_of_scanReal (h : scanReal s = some (x, rest)) : IsReal x ∧ s = x ++ rest := by
  have hwhole := takeWhile_append_drop isLiteralDigit s
  unfold scanReal at h
  dsimp only at h
  -- With a point the exponent may be missing, and without one it may not.
  split at h
  · rename_i r hr
    split at h
    · cases h
    · rename_i hne
      have hne' : s.takeWhile isLiteralDigit ≠ [] ∨ r.takeWhile isLiteralDigit ≠ [] := by
        simpa [Classical.or_iff_not_imp_left] using hne
      have hfraction := takeWhile_append_drop isLiteralDigit r
      split at h
      · rename_i e rest' he
        cases h
        obtain ⟨hexponent, hrest⟩ := isExponent_of_scanExponent he
        refine ⟨?_, ?_⟩
        · rw [append_assoc]
          exact .point (fun c => mem_takeWhile) (fun c => mem_takeWhile) hne' (.inr hexponent)
        · rw [append_assoc, append_assoc, cons_append, ← hrest, hfraction, ← hr,
            hwhole]
      · cases h
        refine ⟨?_, ?_⟩
        · rw [← append_nil (r.takeWhile isLiteralDigit)]
          exact .point (fun c => mem_takeWhile) (fun c => mem_takeWhile) hne' (.inl rfl)
        · rw [append_assoc, cons_append, hfraction, ← hr, hwhole]
  · split at h
    · cases h
    · rename_i hne
      obtain ⟨⟨e, rest'⟩, he, heq⟩ := Option.map_eq_some_iff.1 h
      obtain ⟨rfl, rfl⟩ := Prod.mk.inj heq
      obtain ⟨hexponent, hrest⟩ := isExponent_of_scanExponent he
      refine ⟨.exponent (fun c => mem_takeWhile) (by simpa using hne) hexponent, ?_⟩
      rw [append_assoc, ← hrest, hwhole]

theorem realReading_eq_ok_iff {number : List Char} :
    realReading number suffix = .ok e ↔
      ∃ d, unsignedReal? some number = some d ∧ e = .real (ofDecimal d) := by
  unfold realReading
  cases unsignedReal? some number with
  | none => exact ⟨nofun, fun ⟨d, hd, _⟩ => absurd hd nofun⟩
  | some d =>
    constructor
    · intro h
      exact ⟨d, rfl, (Except.ok.inj h).symm⟩
    · rintro ⟨d', hd, rfl⟩
      rw [Option.some.inj hd]

theorem filter_take_one_append (hone : suffix.length ≤ 1) (hsuffix : ∀ c ∈ suffix, p c)
    (hrest : Stops p rest) : ((suffix ++ rest).take 1).filter p = suffix := by
  match suffix with
  | [] =>
    cases rest with
    | nil => rfl
    | cons c r => exact filter_cons_of_neg (by rw [hrest c r rfl]; decide)
  | [c] => exact filter_cons_of_pos (hsuffix c mem_cons_self)

theorem filter_take_one_append_drop (p : Char → Bool) (s : List Char) :
    ((s.take 1).filter p).length ≤ 1 ∧
      (s.take 1).filter p ++ s.drop ((s.take 1).filter p).length = s := by
  cases s with
  | nil => exact ⟨Nat.zero_le 1, rfl⟩
  | cons c r =>
    cases hc : p c with
    | false => simp [hc]
    | true => simp [hc]

/-- A floating literal is read as its value, with at most one suffix. -/
theorem real?_append {number : List Char} {d : Decimal} (hnumber : IsReal number)
    (hvalue : unsignedReal? some number = some d) (hone : suffix.length ≤ 1)
    (hsuffix : ∀ c ∈ suffix, isRealSuffix c) (hrest : Stops isInner rest) :
    real? (number ++ (suffix ++ rest)) = some (.ok (.real (ofDecimal d)), rest) := by
  have hdigit : Stops isLiteralDigit (suffix ++ rest) :=
    (hrest.mono fun _ => isInner_of_isLiteralDigit).append
      fun c hc => eq_false_of_mem (by decide) (isRealSuffix_iff.1 (hsuffix c hc))
  have hmark : Stops isExponentMark (suffix ++ rest) :=
    (hrest.mono fun _ => isInner_of_isExponentMark).append
      fun c hc => eq_false_of_mem (by decide) (isRealSuffix_iff.1 (hsuffix c hc))
  have hstop : Stops isRealSuffix rest :=
    hrest.mono fun c hc => eq_true_of_mem (by decide) (isRealSuffix_iff.1 hc)
  rw [real?, hnumber.scanReal_append hdigit hmark, Option.map_some]
  dsimp only
  rw [filter_take_one_append hone hsuffix hstop, drop_left,
    realReading_eq_ok_iff.2 ⟨d, hvalue, rfl⟩]

/-- What is read as a floating literal is one of the grammar. -/
theorem literal_of_real? (h : real? s = some (.ok e, rest)) :
    ∃ lexeme, s = lexeme ++ rest ∧ Literal lexeme e := by
  obtain ⟨⟨number, t⟩, hscan, heq⟩ := Option.map_eq_some_iff.1 h
  obtain ⟨hreading, rfl⟩ := Prod.mk.inj heq
  obtain ⟨d, hvalue, rfl⟩ := realReading_eq_ok_iff.1 hreading
  obtain ⟨hnumber, rfl⟩ := isReal_of_scanReal hscan
  obtain ⟨hone, hsuffix⟩ := filter_take_one_append_drop isRealSuffix t
  refine ⟨number ++ (t.take 1).filter isRealSuffix, ?_, .real hnumber hvalue hone fun c hc => ?_⟩
  · rw [append_assoc, hsuffix]
  · exact (mem_filter.1 hc).2

/-! ## Integer literals -/

theorem reading_eq_ok_iff {base : Nat} :
    digitsReading.reading digits base = .ok e ↔
      ∃ n : Nat, ofDigits? base digits = some n ∧ e = .int n := by
  unfold digitsReading.reading
  cases ofDigits? base digits with
  | none => exact ⟨nofun, fun ⟨n, hn, _⟩ => absurd hn nofun⟩
  | some n =>
    constructor
    · intro h
      exact ⟨n, rfl, (Except.ok.inj h).symm⟩
    · rintro ⟨m, hm, rfl⟩
      rw [Option.some.inj hm]

theorem digitsReading_octal (h : IsOctal digits) :
    digitsReading digits = digitsReading.reading digits 8 := by
  obtain ⟨d, r, rfl⟩ := h
  rfl

theorem digitsReading_decimal (h : ¬ IsOctal digits) :
    digitsReading digits =
      if maxDecimalDigits < (digits.takeWhile isDigit).length then
        .error (.tooLong (digits.takeWhile isDigit).length)
      else digitsReading.reading digits 10 := by
  unfold digitsReading
  split
  · exact absurd ⟨_, _, rfl⟩ h
  · rfl

theorem takeWhile_isDigit {base n : Nat} (h : ofDigits? base digits = some n) :
    digits.takeWhile isDigit = digits := by
  have htake := (Stops.nil (p := isDigit)).takeWhile_append (isDigit_of_ofDigits? h)
  rwa [append_nil] at htake

/-- Digits are read as an octal number behind a zero, and else as a decimal one that is not too
long. -/
theorem digitsReading_eq_ok_iff :
    digitsReading digits = .ok e ↔ ∃ n : Nat, e = .int n ∧
      (IsOctal digits ∧ ofDigits? 8 digits = some n ∨
        ¬ IsOctal digits ∧ digits.length ≤ maxDecimalDigits ∧
          ofDigits? 10 digits = some n) := by
  by_cases hoctal : IsOctal digits
  · rw [digitsReading_octal hoctal, reading_eq_ok_iff]
    constructor
    · rintro ⟨n, hn, rfl⟩
      exact ⟨n, rfl, .inl ⟨hoctal, hn⟩⟩
    · rintro ⟨n, rfl, ⟨-, hn⟩ | ⟨hnot, -, -⟩⟩
      · exact ⟨n, hn, rfl⟩
      · exact absurd hoctal hnot
  · rw [digitsReading_decimal hoctal]
    constructor
    · intro h
      split at h
      · cases h
      · rename_i hlength
        obtain ⟨n, hn, rfl⟩ := reading_eq_ok_iff.1 h
        rw [takeWhile_isDigit hn] at hlength
        exact ⟨n, rfl, .inr ⟨hoctal, Nat.not_lt.1 hlength, hn⟩⟩
    · rintro ⟨n, rfl, ⟨hyes, -⟩ | ⟨-, hlength, hn⟩⟩
      · exact absurd hyes hoctal
      · rw [takeWhile_isDigit hn, if_neg (Nat.not_lt.2 hlength)]
        exact reading_eq_ok_iff.2 ⟨n, hn, rfl⟩

/-- The hexadecimal digits at the front of a text. -/
def hexRun (s : List Char) : List Char := s.takeWhile fun c => (hexValue? c).isSome

/-- Without a hexadecimal digit behind its mark, a text is read by its decimal digits. -/
theorem int?_of_not_hex (h : ∀ x r, s = '0' :: x :: r → isHexMark x → hexRun r = []) :
    int? s = if (s.takeWhile isLiteralDigit).isEmpty then none
      else some (digitsReading (s.takeWhile isLiteralDigit),
        (s.drop (s.takeWhile isLiteralDigit).length).dropWhile isIntSuffix) := by
  unfold int?
  split
  · rename_i x r
    by_cases hx : (decide (x = 'x') || decide (x = 'X'))
    · have hrun : r.takeWhile (fun c => (hexValue? c).isSome) = [] := h x r rfl hx
      simp only [if_pos hx, Option.getD_some, hrun]
      rfl
    · rw [if_neg hx]
      rfl
  · rfl

theorem int?_of_hex {mark : Char} (hmark : isHexMark mark) (hne : hexRun r ≠ []) :
    int? ('0' :: mark :: r) =
      some (.ok (.int ((ofHexDigits? 16 (hexRun r)).getD 0)),
        (r.drop (hexRun r).length).dropWhile isIntSuffix) := by
  have hmark' : (decide (mark = 'x') || decide (mark = 'X')) := hmark
  have hne' : r.takeWhile (fun c => (hexValue? c).isSome) ≠ [] := hne
  unfold int?
  simp only [if_pos hmark']
  rw [if_pos (by simpa using hne')]
  rfl

theorem hexValue?_lt {d : Nat} (h : hexValue? c = some d) : d < 16 := by
  simp only [hexValue?, Bool.and_eq_true, decide_eq_true_eq] at h
  split at h
  · have := Option.some.inj h
    omega
  · split at h
    · have := Option.some.inj h
      omega
    · split at h
      · have := Option.some.inj h
        omega
      · cases h

/-- Hexadecimal digits always have a value. -/
theorem exists_ofHexDigits? (h : ∀ c ∈ digits, (hexValue? c).isSome) :
    ∃ n, ofHexDigits? 16 digits = some n := by
  unfold ofHexDigits?
  generalize 0 = acc
  induction digits generalizing acc with
  | nil => exact ⟨acc, rfl⟩
  | cons c r ih =>
    obtain ⟨d, hd⟩ := Option.isSome_iff_exists.1 (h c mem_cons_self)
    obtain ⟨n, hn⟩ := ih (fun c hc => h c (mem_cons_of_mem _ hc)) (acc * 16 + d)
    refine ⟨n, ?_⟩
    rw [foldlM_cons, hd, Option.some_or]
    simp only [if_pos (hexValue?_lt hd)]
    exact hn

theorem Stops.intSuffix_append (hrest : Stops isInner rest)
    (hsuffix : ∀ c ∈ suffix, isIntSuffix c) (hinner : ∀ c, p c → isInner c)
    (hp : ['u', 'U', 'l', 'L'].any p = false) : Stops p (suffix ++ rest) :=
  (hrest.mono hinner).append fun c hc => eq_false_of_mem hp (isIntSuffix_iff.1 (hsuffix c hc))

/-- Digits with integer suffixes are an integer literal and no floating one. -/
theorem int?_digits (hne : digits ≠ []) (hdigits : ∀ c ∈ digits, isLiteralDigit c)
    (hsuffix : ∀ c ∈ suffix, isIntSuffix c) (hrest : Stops isInner rest) :
    real? (digits ++ (suffix ++ rest)) = none ∧
      int? (digits ++ (suffix ++ rest)) = some (digitsReading digits, rest) := by
  have hdigit : Stops isLiteralDigit (suffix ++ rest) :=
    hrest.intSuffix_append hsuffix (fun _ => isInner_of_isLiteralDigit) (by decide)
  have hpoint : Stops (· == '.') (suffix ++ rest) :=
    hrest.intSuffix_append hsuffix (fun _ => isInner_of_point) (by decide)
  have hmark : Stops isExponentMark (suffix ++ rest) :=
    hrest.intSuffix_append hsuffix (fun _ => isInner_of_isExponentMark) (by decide)
  have hhex : Stops isHexMark (suffix ++ rest) :=
    hrest.intSuffix_append hsuffix (fun _ => isInner_of_isHexMark) (by decide)
  have hstop : Stops isIntSuffix rest := hrest.mono fun _ => isInner_of_isIntSuffix
  constructor
  · rw [real?, scanReal_eq_none hdigits hdigit hpoint fun _ => hmark]
    rfl
  · rw [int?_of_not_hex, hdigit.takeWhile_append hdigits, if_neg (by simpa using hne),
      drop_left, hstop.dropWhile_append hsuffix]
    -- The second character is a digit or what follows the only one, so it is no mark.
    intro x r hx hx'
    obtain ⟨d, ds, rfl⟩ := exists_cons_of_ne_nil hne
    obtain ⟨-, hx⟩ := cons.inj hx
    cases ds with
    | nil => rw [hhex x r hx] at hx'; exact absurd hx' (by decide)
    | cons d' ds =>
      obtain ⟨rfl, -⟩ := cons.inj hx
      have hd' := hdigits d' (by simp)
      rw [eq_false_of_mem (p := isLiteralDigit) (by decide) (isHexMark_iff.1 hx')] at hd'
      exact absurd hd' (by decide)

/-- So are hexadecimal digits behind their mark. -/
theorem int?_hexadecimal {mark : Char} {n : Nat} (hmark : mark = 'x' ∨ mark = 'X')
    (hne : digits ≠ []) (hdigits : ∀ c ∈ digits, (hexValue? c).isSome)
    (hvalue : ofHexDigits? 16 digits = some n) (hsuffix : ∀ c ∈ suffix, isIntSuffix c)
    (hrest : Stops isInner rest) :
    real? ('0' :: mark :: (digits ++ (suffix ++ rest))) = none ∧
      int? ('0' :: mark :: (digits ++ (suffix ++ rest))) = some (.ok (.int n), rest) := by
  have hmark' : isHexMark mark := isHexMark_iff.2 (by simpa using hmark)
  have hmem := isHexMark_iff.1 hmark'
  have hstop : Stops isIntSuffix rest := hrest.mono fun _ => isInner_of_isIntSuffix
  have hhex : Stops (fun c => (hexValue? c).isSome) (suffix ++ rest) :=
    hrest.intSuffix_append hsuffix
      (fun _ hc => isInner_of_isNameChar (isNameChar_of_hexValue? hc)) (by decide)
  have hrun : hexRun (digits ++ (suffix ++ rest)) = digits := hhex.takeWhile_append hdigits
  constructor
  · have hscan : scanReal (['0'] ++ mark :: (digits ++ (suffix ++ rest))) = none :=
      scanReal_eq_none (fun c => eq_true_of_mem (by decide))
        (stops_cons (eq_false_of_mem (by decide) hmem))
        (stops_cons (eq_false_of_mem (p := (· == '.')) (by decide) hmem))
        fun _ => stops_cons (eq_false_of_mem (by decide) hmem)
    change (scanReal (['0'] ++ mark :: (digits ++ (suffix ++ rest)))).map _ = none
    rw [hscan]
    rfl
  · rw [int?_of_hex hmark' (by rw [hrun]; exact hne), hrun, hvalue, Option.getD_some,
      drop_left, hstop.dropWhile_append hsuffix]

theorem number?_eq_none (hdigit : Stops isLiteralDigit s) (hpoint : Stops (· == '.') s) :
    real? s = none ∧ int? s = none := by
  constructor
  · have hscan : scanReal ([] ++ s) = none :=
      scanReal_eq_none nofun hdigit hpoint fun h => absurd rfl h
    rw [real?, ← nil_append s, hscan]
    rfl
  · have htake : s.takeWhile isLiteralDigit = [] :=
      hdigit.takeWhile_append (s := []) nofun
    rw [int?_of_not_hex, htake]
    · rfl
    · intro x r hs
      exact absurd (hdigit _ _ hs) (by decide)

theorem takeWhile_append_suffix (p : Char → Bool) (s : List Char) :
    ∃ suffix, (∀ c ∈ suffix, isIntSuffix c) ∧
      s = (s.takeWhile p ++ suffix) ++ (s.drop (s.takeWhile p).length).dropWhile isIntSuffix := by
  refine ⟨(s.drop (s.takeWhile p).length).takeWhile isIntSuffix, fun c => mem_takeWhile, ?_⟩
  rw [append_assoc, takeWhile_append_dropWhile, takeWhile_append_drop]

/-- What is read as an integer literal is one of the grammar. -/
theorem literal_of_int? (h : int? s = some (.ok e, rest)) :
    ∃ lexeme, s = lexeme ++ rest ∧ Literal lexeme e := by
  by_cases hhex : ∃ mark r, s = '0' :: mark :: r ∧ isHexMark mark ∧ hexRun r ≠ []
  · obtain ⟨mark, r, rfl, hmark, hne⟩ := hhex
    have hdigits : ∀ c ∈ hexRun r, (hexValue? c).isSome := fun c hc => mem_takeWhile hc
    obtain ⟨n, hn⟩ := exists_ofHexDigits? hdigits
    obtain ⟨suffix, hsuffix, hr⟩ := takeWhile_append_suffix (fun c => (hexValue? c).isSome) r
    rw [int?_of_hex hmark hne, hn] at h
    obtain ⟨he, rfl⟩ := Prod.mk.inj (Option.some.inj h)
    rw [← Except.ok.inj he]
    refine ⟨'0' :: mark :: (hexRun r ++ suffix), congrArg ('0' :: mark :: ·) hr, ?_⟩
    exact .hexadecimal (by simpa using isHexMark_iff.1 hmark) hne hdigits hn hsuffix
  · have hnot : ∀ x r, s = '0' :: x :: r → isHexMark x → hexRun r = [] := by
      intro x r hs hx
      exact Decidable.byContradiction fun hne => hhex ⟨x, r, hs, hx, hne⟩
    rw [int?_of_not_hex hnot] at h
    split at h
    · cases h
    · rename_i hne
      obtain ⟨he, rfl⟩ := Prod.mk.inj (Option.some.inj h)
      obtain ⟨suffix, hsuffix, hs⟩ := takeWhile_append_suffix isLiteralDigit s
      refine ⟨s.takeWhile isLiteralDigit ++ suffix, hs, ?_⟩
      obtain ⟨n, rfl, ⟨hoctal, hn⟩ | ⟨hoctal, hlength, hn⟩⟩ := digitsReading_eq_ok_iff.1 he
      · exact .octal hoctal hn hsuffix
      · exact .decimal (by simpa using hne) hoctal hlength hn hsuffix

/-! ## Characters and truth values -/

theorem char?_char (hescape : c ≠ '\\') (hquote : c ≠ '\'') (rest : List Char) :
    char? ('\'' :: c :: '\'' :: rest) = some (.ok (.int c.toNat), rest) := by
  unfold char?
  split
  · rename_i h
    exact absurd (cons.inj (cons.inj h).2).1 hescape
  · rename_i h
    obtain ⟨rfl, rfl⟩ := h
    rw [if_neg (by simp [hescape, hquote])]
  · rename_i h
    exact absurd rfl (h c rest)

theorem char?_escape {n : Int} (hcode : escapeCode? c = some n) (rest : List Char) :
    char? ('\'' :: '\\' :: c :: '\'' :: rest) = some (.ok (.int n), rest) := by
  have hline : c ≠ '\n' := by
    rintro rfl
    cases hcode
  rw [char?, if_neg hline, hcode]

/-- What is read as a character is one of the grammar. -/
theorem literal_of_char? (h : char? s = some (.ok e, rest)) :
    ∃ lexeme, s = lexeme ++ rest ∧ Literal lexeme e := by
  unfold char? at h
  split at h
  · rename_i c r
    split at h
    · cases h
    · split at h
      · rename_i n hcode
        obtain ⟨he, rfl⟩ := Prod.mk.inj (Option.some.inj h)
        cases he
        exact ⟨['\'', '\\', c, '\''], rfl, .escape hcode⟩
      · exact absurd (Prod.mk.inj (Option.some.inj h)).1 nofun
  · rename_i c r _
    split at h
    · cases h
    · rename_i hc
      obtain ⟨he, rfl⟩ := Prod.mk.inj (Option.some.inj h)
      have hplain : c ≠ '\\' ∧ c ≠ '\'' := by simpa using hc
      cases he
      exact ⟨['\'', c, '\''], rfl, .char hplain.1 hplain.2⟩
  · cases h

theorem bool?_text (b : Bool) (h : endsWord rest) :
    bool? ((Expr.bool b).text.toList ++ rest) = some (.ok (.bool b), rest) := by
  cases b with
  | true =>
    change bool? ("true".toList ++ rest) = _
    simp only [bool?, after?_append, Option.bind_eq_bind, Option.bind_some, h, if_true,
      Option.orElse_some]
  | false =>
    have hother : after? "true".toList ("false".toList ++ rest) = none := rfl
    change bool? ("false".toList ++ rest) = _
    simp only [bool?, after?_append, hother, Option.bind_eq_bind, Option.bind_some,
      Option.bind_none, h, if_true, Option.orElse_none]

/-- A truth value is read only from a whole word. -/
theorem text_of_bool? {r : Reading} (h : bool? s = some (r, rest)) :
    ∃ b, r = .ok (.bool b) ∧ s = (Expr.bool b).text.toList ++ rest ∧ endsWord rest := by
  have key : ∀ b : Bool, (after? (Expr.bool b).text.toList s).bind (fun rest =>
      if endsWord rest then some ((.ok (.bool b) : Reading), rest) else none) =
        some (r, rest) →
      r = .ok (.bool b) ∧ s = (Expr.bool b).text.toList ++ rest ∧ endsWord rest := by
    intro b hb
    obtain ⟨t, ht, hend⟩ := Option.bind_eq_some_iff.1 hb
    split at hend
    · cases hend
      exact ⟨rfl, eq_append_of_after? ht, ‹_›⟩
    · cases hend
  unfold bool? at h
  rw [Option.orElse_eq_or, Option.or_eq_some_iff] at h
  rcases h with htrue | ⟨-, hfalse⟩
  · exact ⟨true, key true htrue⟩
  · exact ⟨false, key false hfalse⟩

theorem literal_of_bool? (h : bool? s = some (.ok e, rest)) :
    ∃ lexeme, s = lexeme ++ rest ∧ Literal lexeme e := by
  obtain ⟨b, he, hs, -⟩ := text_of_bool? h
  cases he
  exact ⟨_, hs, .bool b⟩

theorem stops_isWord_of_endsWord (h : endsWord rest) : Stops isWord rest := by
  rintro c r rfl
  exact Bool.not_eq_true' _ ▸ h

theorem endsWord_of_stops (h : Stops isWord rest) : endsWord rest := by
  cases rest with
  | nil => rfl
  | cons c r => exact congrArg (! ·) (h c r rfl)

/-- No other name is read as a truth value. -/
theorem bool?_eq_none (hx : ∀ c ∈ x, isNameChar c) (htrue : x ≠ "true".toList)
    (hfalse : x ≠ "false".toList) (hrest : Stops isNameChar rest) : bool? (x ++ rest) = none := by
  cases h : bool? (x ++ rest) with
  | none => rfl
  | some v =>
    obtain ⟨r, t⟩ := v
    obtain ⟨b, -, hs, hend⟩ := text_of_bool? h
    have hstop : Stops isNameChar t :=
      (stops_isWord_of_endsWord hend).mono fun _ => isWord_of_isNameChar
    have hword : ∀ c ∈ (Expr.bool b).text.toList, isNameChar c := by
      cases b <;> exact fun c => eq_true_of_mem (by decide)
    have heq : x = (Expr.bool b).text.toList := by
      rw [← hrest.takeWhile_append hx, hs, hstop.takeWhile_append hword]
    cases b with
    | true => exact absurd heq htrue
    | false => exact absurd heq hfalse

/-! ## Names -/

/-- An identifier is found again, if no character of a name follows it. -/
theorem IsIdentifier.identifier?_append (h : IsIdentifier x) (hrest : Stops isNameChar rest) :
    identifier? (x ++ rest) = some (x, rest) := by
  obtain ⟨c, r, rfl, hc, hr⟩ := h
  rw [cons_append, identifier?, if_pos hc]
  dsimp only
  rw [hrest.takeWhile_append hr, drop_left]

theorem isIdentifier_of_identifier? (h : identifier? s = some (x, rest)) :
    IsIdentifier x ∧ s = x ++ rest := by
  unfold identifier? at h
  split at h
  · rename_i c r
    split at h
    · rename_i hc
      cases h
      refine ⟨⟨c, _, rfl, hc, fun d => mem_takeWhile⟩, ?_⟩
      rw [cons_append, takeWhile_append_drop]
    · cases h
  · cases h

theorem IsIdentifier.isNameChar (h : IsIdentifier x) : ∀ c ∈ x, isNameChar c := by
  obtain ⟨c, r, rfl, hc, hr⟩ := h
  exact forall_mem_cons.2 ⟨isNameChar_of_isNameStart hc, hr⟩

theorem isWord_of_isWhiteSpace (h : isWhiteSpace c) : isWord c = false := by
  have hinner := isInner_of_isDelimiter (Bool.or_eq_true_iff.2 (.inl h))
  cases hc : isWord c with
  | false => rfl
  | true =>
    rw [← hinner]
    exact (isInner_of_isWord hc).symm

theorem isWhiteSpace_of_isNameChar (h : isNameChar c) : isWhiteSpace c = false := by
  cases hc : isWhiteSpace c with
  | false => rfl
  | true =>
    rw [← isWord_of_isNameChar h]
    exact isWord_of_isWhiteSpace hc

theorem Stops.identifier (h : Stops isWord rest) : Stops isNameChar rest :=
  h.mono fun _ => isWord_of_isNameChar

theorem Blanks.stops_append {b : List Char} (hb : Blanks b) (hc : isWord c = false)
    (r : List Char) :
    Stops isWord (b ++ c :: r) :=
  (stops_cons hc).append fun d hd => isWord_of_isWhiteSpace (hb d hd)

/-- The steps of a path are no part of the word before them. -/
theorem Steps.stops {t : List Char} (h : Steps s t) (hrest : Stops isWord rest) :
    Stops isWord (s ++ rest) := by
  cases h with
  | nil => exact hrest
  | member ha h1 _ _ _ =>
    rw [append_assoc]
    rcases ha with rfl | rfl <;> exact h1.stops_append (by decide) _
  | index h1 _ _ _ _ _ =>
    rw [append_assoc]
    exact h1.stops_append (by decide) _

theorem IsIdentifier.skipBlanks_append {b : List Char} (h : IsIdentifier x) (hb : Blanks b)
    (rest : List Char) : skipBlanks (b ++ (x ++ rest)) = x ++ rest := by
  rw [Guard.skipBlanks_append hb]
  exact ((h.opens.append rest).imp fun _ hc => opensExpr_of_opensOperand
    (opensOperand_of_opensAtom (opensAtom_of_isNameStart hc))).skipBlanks

/-- The name of a member is found again behind its arrow or point. -/
theorem pathStep?_member {arrow b1 b2 : List Char} (ha : arrow = ['.'] ∨ arrow = ['-', '>'])
    (h1 : Blanks b1) (h2 : Blanks b2) (hx : IsIdentifier x) (hrest : Stops isNameChar rest) :
    pathStep? (b1 ++ (arrow ++ (b2 ++ (x ++ rest)))) = some (arrow ++ x, rest) := by
  have hfound : identifier? (skipBlanks (b2 ++ (x ++ rest))) = some (x, rest) := by
    rw [hx.skipBlanks_append h2, hx.identifier?_append hrest]
  rcases ha with rfl | rfl
  · have hskip : skipBlanks (b1 ++ (['.'] ++ (b2 ++ (x ++ rest)))) = '.' :: (b2 ++ (x ++ rest)) :=
      skipBlanks_append h1 _
    simp only [pathStep?, hskip, hfound]
    rfl
  · have hskip : skipBlanks (b1 ++ (['-', '>'] ++ (b2 ++ (x ++ rest)))) =
        '-' :: '>' :: (b2 ++ (x ++ rest)) :=
      skipBlanks_append h1 _
    simp only [pathStep?, hskip, hfound]
    rfl

/-- An index is found again between its brackets. -/
theorem pathStep?_index {b1 b2 b3 i : List Char} (h1 : Blanks b1) (h2 : Blanks b2)
    (h3 : Blanks b3) (hne : i ≠ []) (hi : ∀ c ∈ i, isNameChar c) (rest : List Char) :
    pathStep? (b1 ++ '[' :: (b2 ++ (i ++ (b3 ++ ']' :: rest)))) =
      some ('[' :: (i ++ [']']), rest) := by
  have hskip : skipBlanks (b1 ++ '[' :: (b2 ++ (i ++ (b3 ++ ']' :: rest)))) =
      '[' :: (b2 ++ (i ++ (b3 ++ ']' :: rest))) :=
    skipBlanks_append h1 _
  have hindex : skipBlanks (b2 ++ (i ++ (b3 ++ ']' :: rest))) = i ++ (b3 ++ ']' :: rest) := by
    obtain ⟨c, r, rfl⟩ := exists_cons_of_ne_nil hne
    have hc := isWhiteSpace_of_isNameChar (hi c mem_cons_self)
    rw [skipBlanks_append h2]
    exact dropWhile_cons_of_neg (by rw [hc]; decide)
  have hclose : skipBlanks (b3 ++ ']' :: rest) = ']' :: rest := skipBlanks_append h3 _
  have hstop := (h3.stops_append (c := ']') (by decide) rest).identifier
  simp only [pathStep?, hskip, hindex, hstop.takeWhile_append hi, drop_left, hclose]
  rw [if_neg (by simpa using hne)]

/-- The steps of a path are found again.  Each takes a character at least, so there is fuel enough.
-/
theorem Steps.pathSteps_append {fuel : Nat} {t : List Char} (h : Steps s t)
    (hrest : MayFollow k rest) (hfuel : s.length ≤ fuel) :
    pathSteps fuel (s ++ rest) = (t, rest) := by
  have hstop := hrest.stops_isWord
  induction h generalizing fuel with
  | nil =>
    cases fuel with
    | zero => rfl
    | succ fuel =>
      simp only [nil_append, pathSteps, hrest.pathStep?_eq_none]
  | @member arrow b1 b2 x s t ha h1 h2 hx h ih =>
    cases fuel with
    | zero => rcases ha with rfl | rfl <;> simp at hfuel
    | succ fuel =>
      have hstep := pathStep?_member ha h1 h2 hx (h.stops hstop).identifier
      have hle : s.length ≤ fuel := by
        rcases ha with rfl | rfl <;> simp at hfuel <;> omega
      simp only [append_assoc, pathSteps, hstep, ih hle]
  | @index b1 b2 b3 i s t h1 h2 h3 hne hi h ih =>
    cases fuel with
    | zero => simp at hfuel
    | succ fuel =>
      have hstep := pathStep?_index h1 h2 h3 hne hi (s ++ rest)
      have hle : s.length ≤ fuel := by
        simp at hfuel
        omega
      simp only [append_assoc, cons_append, pathSteps, hstep, ih hle, nil_append]

theorem steps_of_pathStep? {step : List Char} (h : pathStep? s = some (step, rest)) :
    ∃ lexeme, s = lexeme ++ rest ∧ ∀ s' t, Steps s' t → Steps (lexeme ++ s') (step ++ t) := by
  obtain ⟨b1, h1, hs⟩ := exists_blanks_append s
  have member : ∀ {arrow r : List Char}, arrow = ['.'] ∨ arrow = ['-', '>'] →
      skipBlanks s = arrow ++ r →
      (identifier? (skipBlanks r)).map (fun p => (arrow ++ p.1, p.2)) = some (step, rest) →
      ∃ lexeme, s = lexeme ++ rest ∧ ∀ s' t, Steps s' t → Steps (lexeme ++ s') (step ++ t) := by
    intro arrow r ha hr hfound
    obtain ⟨⟨x, rest'⟩, hx, heq⟩ := Option.map_eq_some_iff.1 hfound
    obtain ⟨rfl, rfl⟩ := Prod.mk.inj heq
    obtain ⟨b2, h2, hb2⟩ := exists_blanks_append r
    obtain ⟨hident, hrest⟩ := isIdentifier_of_identifier? hx
    refine ⟨b1 ++ (arrow ++ (b2 ++ x)), ?_, fun s' t hsteps => ?_⟩
    · rw [hs, hr, hb2, hrest]
      simp only [append_assoc]
    · have hmember := Steps.member ha h1 h2 hident hsteps
      simpa only [append_assoc] using hmember
  unfold pathStep? at h
  -- By the sign in front: a point, an arrow or a bracket.
  split at h
  · rename_i r hr
    exact member (.inl rfl) hr h
  · rename_i r hr
    exact member (.inr rfl) hr h
  · rename_i r hr
    dsimp only at h
    split at h
    · rename_i rest' hclose
      split at h
      · cases h
      · rename_i hne
        obtain ⟨rfl, rfl⟩ := Prod.mk.inj (Option.some.inj h)
        obtain ⟨b2, h2, hb2⟩ := exists_blanks_append r
        have hindex := takeWhile_append_drop isNameChar (skipBlanks r)
        have hi : ∀ c ∈ (skipBlanks r).takeWhile isNameChar, isNameChar c :=
          fun c => mem_takeWhile
        generalize (skipBlanks r).takeWhile isNameChar = i at hclose hne hindex hi ⊢
        obtain ⟨b3, h3, hb3⟩ := exists_blanks_append ((skipBlanks r).drop i.length)
        refine ⟨b1 ++ '[' :: (b2 ++ (i ++ (b3 ++ [']']))), ?_, fun s' t hsteps => ?_⟩
        · calc s = b1 ++ '[' :: (b2 ++ skipBlanks r) := by rw [hs, hr, ← hb2]
            _ = b1 ++ '[' :: (b2 ++ (i ++ (b3 ++ ']' :: rest'))) := by rw [← hindex, hb3, hclose]
            _ = (b1 ++ '[' :: (b2 ++ (i ++ (b3 ++ [']'])))) ++ rest' := by simp
        · have hstep := Steps.index h1 h2 h3 (by simpa using hne) hi hsteps
          simpa only [append_assoc, cons_append, nil_append] using hstep
    · cases h
  · cases h

/-- What is taken as steps of a path are such steps. -/
theorem steps_of_pathSteps (fuel : Nat) (s : List Char) :
    ∃ lexeme, s = lexeme ++ (pathSteps fuel s).2 ∧ Steps lexeme (pathSteps fuel s).1 := by
  induction fuel generalizing s with
  | zero => exact ⟨[], rfl, .nil⟩
  | succ fuel ih =>
    rw [pathSteps]
    split
    · rename_i step rest hstep
      obtain ⟨lexeme, rfl, hsteps⟩ := steps_of_pathStep? hstep
      obtain ⟨lexeme', hrest, hsteps'⟩ := ih rest
      refine ⟨lexeme ++ lexeme', ?_, hsteps _ _ hsteps'⟩
      rw [append_assoc]
      exact congrArg (lexeme ++ ·) hrest
    · exact ⟨[], rfl, .nil⟩

theorem Path.name?_append (h : Path s x) (hrest : MayFollow k rest) :
    name? (s ++ rest) = some (.ok (.name (String.ofList x)), rest) := by
  obtain @⟨x, s, t, hx, -, -, hs⟩ := h
  have hident := hx.identifier?_append (hs.stops hrest.stops_isWord).identifier
  have hsteps : pathSteps (s ++ rest).length (s ++ rest) = (t, rest) :=
    hs.pathSteps_append hrest (by simp)
  rw [append_assoc, name?, hident]
  simp only [Option.bind_eq_bind, Option.bind_some, hsteps]
  rfl

/-- What is read as a name is an identifier with the steps of a path. -/
theorem path_of_name? {r : Reading} (h : name? s = some (r, rest)) :
    ∃ x s' t, r = .ok (.name (String.ofList (x ++ t))) ∧ s = x ++ (s' ++ rest) ∧
      IsIdentifier x ∧ Steps s' t := by
  obtain ⟨⟨x, rest'⟩, hident, heq⟩ := Option.bind_eq_some_iff.1 h
  obtain ⟨hx, rfl⟩ := isIdentifier_of_identifier? hident
  obtain ⟨s', hs', hsteps⟩ := steps_of_pathSteps rest'.length rest'
  cases heq
  exact ⟨x, s', _, rfl, congrArg (x ++ ·) hs', hx, hsteps⟩

/-! ## Literals and names -/

theorem atom?_digits (hne : digits ≠ []) (hdigits : ∀ c ∈ digits, isLiteralDigit c)
    (hsuffix : ∀ c ∈ suffix, isIntSuffix c) (hrest : Stops isInner rest) :
    atom? (digits ++ (suffix ++ rest)) = some (digitsReading digits, rest) := by
  obtain ⟨hreal, hint⟩ := int?_digits hne hdigits hsuffix hrest
  rw [atom?, hreal, hint, Option.none_or, Option.some_or]

/-- **Literals are found again.**  The readers before that of its class find nothing in a literal.
-/
theorem Literal.atom?_append (h : Literal s e) (hrest : MayFollow k rest) :
    atom? (s ++ rest) = some (.ok e, rest) := by
  have hquote : ∀ r : List Char, real? ('\'' :: r) = none ∧ int? ('\'' :: r) = none :=
    fun r => number?_eq_none (stops_cons (by decide)) (stops_cons (by decide))
  -- By the form of the literal, in the order in which the readers are tried.
  cases h with
  | decimal hne hoctal hlength hvalue hsuffix =>
    rw [append_assoc, atom?_digits hne (isLiteralDigit_of_ofDigits? hvalue) hsuffix hrest.stops,
      digitsReading_eq_ok_iff.2 ⟨_, rfl, .inr ⟨hoctal, hlength, hvalue⟩⟩]
  | octal hoctal hvalue hsuffix =>
    have hne : _ ≠ [] := fun h => by
      obtain ⟨d, r, hdigits⟩ := hoctal
      exact absurd (hdigits.symm.trans h) nofun
    rw [append_assoc, atom?_digits hne (isLiteralDigit_of_ofDigits? hvalue) hsuffix hrest.stops,
      digitsReading_eq_ok_iff.2 ⟨_, rfl, .inl ⟨hoctal, hvalue⟩⟩]
  | hexadecimal hmark hne hdigits hvalue hsuffix =>
    obtain ⟨hreal, hint⟩ := int?_hexadecimal hmark hne hdigits hvalue hsuffix hrest.stops
    rw [cons_append, cons_append, append_assoc, atom?, hreal, hint, Option.none_or, Option.some_or]
  | real hnumber hvalue hone hsuffix =>
    rw [append_assoc, atom?, real?_append hnumber hvalue hone hsuffix hrest.stops, Option.some_or]
  | @char c hescape hcq =>
    obtain ⟨hreal, hint⟩ := hquote (c :: '\'' :: rest)
    change atom? ('\'' :: c :: '\'' :: rest) = _
    rw [atom?, hreal, hint, char?_char hescape hcq, Option.none_or, Option.none_or, Option.some_or]
  | @escape c n hcode =>
    obtain ⟨hreal, hint⟩ := hquote ('\\' :: c :: '\'' :: rest)
    change atom? ('\'' :: '\\' :: c :: '\'' :: rest) = _
    rw [atom?, hreal, hint, char?_escape hcode, Option.none_or, Option.none_or, Option.some_or]
  | bool b =>
    have hend := endsWord_of_stops hrest.stops_isWord
    have hchar : char? ((Expr.bool b).text.toList ++ rest) = none := by cases b <;> rfl
    obtain ⟨hreal, hint⟩ := number?_eq_none (s := (Expr.bool b).text.toList ++ rest)
      (by cases b <;> exact stops_cons (by decide)) (by cases b <;> exact stops_cons (by decide))
    rw [atom?, hreal, hint, hchar, bool?_text b hend, Option.none_or, Option.none_or,
      Option.none_or, Option.some_or]

/-- **Names are found again.** -/
theorem Path.atom?_append (h : Path s x) (hrest : MayFollow k rest) :
    atom? (s ++ rest) = some (.ok (.name (String.ofList x)), rest) := by
  have hname := h.name?_append hrest
  have hbool : bool? (s ++ rest) = none := by
    obtain ⟨hx, htrue, hfalse, hs⟩ := h
    rw [append_assoc]
    exact bool?_eq_none hx.isNameChar htrue hfalse (hs.stops hrest.stops_isWord).identifier
  obtain ⟨c, r, hs, hc⟩ := h.opens.append rest
  rw [hs] at hname hbool ⊢
  have hne : ∀ d : Char, isNameStart d = false → c ≠ d := by
    rintro d hd rfl
    rw [hc] at hd
    exact absurd hd (by decide)
  obtain ⟨hreal, hint⟩ := number?_eq_none (s := c :: r)
    (stops_cons (isLiteralDigit_of_isNameStart hc))
    (stops_cons (beq_eq_false_iff_ne.2 (hne '.' (by decide))))
  have hchar : char? (c :: r) = none := by
    unfold char?
    split
    · rename_i h
      exact absurd (cons.inj h).1 (hne '\'' (by decide))
    · rename_i h
      exact absurd (cons.inj h).1 (hne '\'' (by decide))
    · rfl
  rw [atom?, hreal, hint, hchar, hbool, hname]
  rfl

/-- **What is found is a lexeme of the grammar,** a literal or, where a word ends behind it, a name.
-/
theorem lexeme_of_atom? (h : atom? s = some (.ok e, rest)) :
    ∃ lexeme, s = lexeme ++ rest ∧ (endsWord rest →
      Literal lexeme e ∨ ∃ x, e = .name (String.ofList x) ∧ Path lexeme x) := by
  have literal : (∃ lexeme, s = lexeme ++ rest ∧ Literal lexeme e) →
      ∃ lexeme, s = lexeme ++ rest ∧ (endsWord rest →
        Literal lexeme e ∨ ∃ x, e = .name (String.ofList x) ∧ Path lexeme x) := by
    rintro ⟨lexeme, hs, hlit⟩
    exact ⟨lexeme, hs, fun _ => .inl hlit⟩
  -- The first reader that finds something decides.
  rcases Option.or_eq_some_iff.1 h with hreal | ⟨-, h⟩
  · exact literal (literal_of_real? hreal)
  rcases Option.or_eq_some_iff.1 h with hint | ⟨-, h⟩
  · exact literal (literal_of_int? hint)
  rcases Option.or_eq_some_iff.1 h with hchar | ⟨-, h⟩
  · exact literal (literal_of_char? hchar)
  rcases Option.or_eq_some_iff.1 h with hbool | ⟨hbool, h⟩
  · exact literal (literal_of_bool? hbool)
  obtain ⟨x, s', t, he, rfl, hx, hsteps⟩ := path_of_name? h
  cases he
  refine ⟨x ++ s', by rw [append_assoc], fun hend => .inr ⟨x ++ t, rfl, ?_⟩⟩
  -- A truth value would have been read before.
  have hword : endsWord (s' ++ rest) :=
    endsWord_of_stops (hsteps.stops (stops_isWord_of_endsWord hend))
  refine .mk hx ?_ ?_ hsteps
  · rintro rfl
    exact absurd ((bool?_text true hword).symm.trans hbool) nofun
  · rintro rfl
    exact absurd ((bool?_text false hword).symm.trans hbool) nofun

end Branchwise.Guard
