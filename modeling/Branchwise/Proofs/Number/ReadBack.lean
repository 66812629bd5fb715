import Branchwise.Proofs.Guard.RoundTrip
import Branchwise.Proofs.Number.Rounding

/-!
# Binary numbers are read back from their texts

The shortest decimal of a number lies in the interval that rounds to it, and its text, positional or
with an exponent, has the value of the decimal.  So the text of a finite number is read as that
number.
-/

namespace Branchwise.Binary64

variable {m : Nat} {q : Int} {r : Rat}

/-- A finite number in the one form that the format gives it. -/
def IsCanonical : Binary64 → Prop
  | finite _ m q =>
    m < 2 ^ 53 ∧ minExponent ≤ q ∧ q ≤ maxExponent ∧ (2 ^ 52 ≤ m ∨ q = minExponent)
  | _ => False

/-- A place in an interval, whose ends may belong to it. -/
def IsInside (lo hi : Rat) (closed : Bool) (x : Rat) : Prop :=
  lo ≤ x ∧ x ≤ hi ∧ (closed = false → lo < x ∧ x < hi)

/-! ## Rounding to a number -/

/-- The nearest integer is one that is less than a half away, or an even one that is a half away. -/
theorem roundHalfEven_of_near {x : Rat} {n : Int} (hlo : (n : Rat) - 1 / 2 ≤ x)
    (hhi : x ≤ n + 1 / 2) (hodd : n % 2 ≠ 0 → (n : Rat) - 1 / 2 < x ∧ x < n + 1 / 2) :
    roundHalfEven x = n := by
  have hbelow := Rat.floor_le x
  have habove := Rat.lt_floor_add_one x
  push_cast at habove
  have hle : x.floor ≤ n := Int.lt_add_one_iff.mp
    (by exact_mod_cast (by linarith : (x.floor : Rat) < n + 1))
  have hge : n - 1 ≤ x.floor := Int.lt_add_one_iff.mp
    (by exact_mod_cast (by linarith : (n : Rat) - 1 < x.floor + 1))
  unfold roundHalfEven
  dsimp only
  rcases (by omega : x.floor = n ∨ x.floor = n - 1) with hfloor | hfloor
  · -- Only an even number may be a half below.
    rw [hfloor]
    split_ifs with hsmall hlarge heven
    · rfl
    · linarith
    · rfl
    · linarith [(hodd heven).2]
  · rw [hfloor]
    push_cast
    split_ifs with hsmall hlarge heven
    · linarith
    · ring
    · linarith [(hodd (by omega)).1]
    · ring

/-- The last place of a rational, which has 53 bits in front of it unless it is the least one. -/
theorem lastPlace_eq (hr : 0 < r) (hlt : r < 2 ^ (53 + q)) (hmin : minExponent ≤ q)
    (hle : (2 : Rat) ^ (52 + q) ≤ r ∨ q = minExponent) : lastPlace r = q := by
  obtain ⟨hlog, hlog'⟩ := log2Floor_spec hr
  have hbelow : log2Floor r < 53 + q :=
    (zpow_lt_zpow_iff_right₀ (by norm_num)).mp (hlog.trans_lt hlt)
  unfold lastPlace
  rcases hle with hle | rfl
  · have habove : 52 + q < log2Floor r + 1 :=
      (zpow_lt_zpow_iff_right₀ (by norm_num)).mp (hle.trans_lt hlog')
    omega
  · omega

/-- The interval around a number reaches half a place up and down, and only a quarter down from a
power of two. -/
theorem roundingInterval_eq (m : Nat) (q : Int) : roundingInterval m q =
    ((m : Rat) * 2 ^ q - (if m = 2 ^ 52 ∧ minExponent < q then 2 ^ q / 4 else 2 ^ q / 2),
      (m : Rat) * 2 ^ q + 2 ^ q / 2) := by
  simp only [roundingInterval, pow2_eq_zpow, Bool.and_eq_true, decide_eq_true_eq]
  rfl

theorem ofRat_of_isInside (hx : (finite false m q).IsCanonical) (hm : 0 < m)
    (h : IsInside (roundingInterval m q).1 (roundingInterval m q).2 (m % 2 = 0) r) :
    ofRat r false = finite false m q := by
  obtain ⟨hlt, hmin, hmax, hlead⟩ := hx
  obtain ⟨hlo, hhi, hopen⟩ := h
  simp only [roundingInterval_eq] at hlo hhi hopen
  have hunit : (0 : Rat) < 2 ^ q := by positivity
  have hpow (k : Int) : (2 : Rat) ^ (k + q) = 2 ^ k * 2 ^ q := zpow_add₀ (by norm_num) _ _
  have hone : (1 : Rat) ≤ m := by exact_mod_cast hm
  have hmant : (m : Rat) + 1 ≤ 2 ^ (53 : Int) := by exact_mod_cast hlt
  have hhalf : (m : Rat) * 2 ^ q - 2 ^ q / 2 ≤ r := by
    split_ifs at hlo <;> linarith
  have hr : 0 < r := by nlinarith
  by_cases hcarry : minExponent < q ∧ r < 2 ^ (52 + q)
  · -- Below the least of 53 bits the grid is finer, and rounding carries.
    obtain ⟨hq, hsmall⟩ := hcarry
    obtain rfl : m = 2 ^ 52 := by
      refine le_antisymm ?_ (hlead.resolve_right hq.ne')
      by_contra hlarge
      have : (2 : Rat) ^ (52 : Int) + 1 ≤ m := by exact_mod_cast (not_le.mp hlarge)
      rw [hpow] at hsmall
      nlinarith
    rw [if_pos ⟨rfl, hq⟩] at hlo
    have hfine : (2 : Rat) ^ (q - 1) = 2 ^ q / 2 := by rw [zpow_sub_one₀ (by norm_num)]; rfl
    have hplace : lastPlace r = q - 1 := by
      refine lastPlace_eq hr ?_ (by omega) (.inl ?_)
      · rwa [show 53 + (q - 1) = 52 + q by ring]
      · rw [show 52 + (q - 1) = 51 + q by ring, hpow]
        push_cast at hlo
        norm_num at hlo ⊢
        linarith
    have hround : roundHalfEven (r / 2 ^ lastPlace r) = ((2 ^ 53 : Nat) : Int) := by
      rw [hpow] at hsmall
      push_cast at hlo
      refine roundHalfEven_of_near ?_ ?_ fun h => absurd (by decide) h
      · rw [hplace, hfine, le_div_iff₀ (by linarith)]
        push_cast
        norm_num at hlo ⊢
        linarith
      · rw [hplace, hfine, div_le_iff₀ (by linarith)]
        push_cast
        norm_num at hsmall ⊢
        linarith
    rw [ofRat_eq hr hround, if_pos rfl, hplace, sub_add_cancel, if_neg (by omega)]
  · have hplace : lastPlace r = q := by
      refine lastPlace_eq hr ?_ hmin ?_
      · rw [hpow]
        nlinarith
      · rcases hmin.eq_or_lt with heq | hq
        · exact .inr heq.symm
        · exact .inl (not_lt.mp fun h => hcarry ⟨hq, h⟩)
    have hround : roundHalfEven (r / 2 ^ lastPlace r) = (m : Int) := by
      rw [hplace]
      refine roundHalfEven_of_near ?_ ?_ fun hodd => ?_
      · rw [le_div_iff₀ hunit]
        push_cast
        linarith
      · rw [div_le_iff₀ hunit]
        push_cast
        linarith
      · obtain ⟨hlo', hhi'⟩ := hopen (by simpa using (by omega : ¬m % 2 = 0))
        rw [lt_div_iff₀ hunit, div_lt_iff₀ hunit]
        push_cast
        constructor
        · split_ifs at hlo' <;> linarith
        · linarith
    rw [ofRat_eq hr hround, if_neg (by omega), hplace, if_neg (by omega)]

/-! ## The shortest decimal -/

theorem isInside_of_gridCandidate {lo hi : Rat} {closed : Bool} {k : Int} {d : Nat}
    (h : gridCandidate r lo hi closed k = some d) :
    d ≠ 0 ∧ IsInside lo hi closed (d * 10 ^ k) := by
  have hinside (n : Nat) (hn : (if closed = true then
      decide (lo ≤ (n : Rat) * 10 ^ k) && decide ((n : Rat) * 10 ^ k ≤ hi)
      else decide (lo < (n : Rat) * 10 ^ k) && decide ((n : Rat) * 10 ^ k < hi)) = true) :
      IsInside lo hi closed (n * 10 ^ k) := by
    cases closed with
    | true =>
      obtain ⟨hlo, hhi⟩ : lo ≤ (n : Rat) * 10 ^ k ∧ (n : Rat) * 10 ^ k ≤ hi := by simpa using hn
      exact ⟨hlo, hhi, fun h => absurd h (by decide)⟩
    | false =>
      obtain ⟨hlo, hhi⟩ : lo < (n : Rat) * 10 ^ k ∧ (n : Rat) * 10 ^ k < hi := by simpa using hn
      exact ⟨hlo.le, hhi.le, fun _ => ⟨hlo, hhi⟩⟩
  simp only [gridCandidate, pow10_eq_zpow] at h
  generalize (r / 10 ^ k).floor.toNat = below at h
  split at h
  · next hleft hright =>
    rw [Bool.and_eq_true] at hleft
    have hbelow := And.intro (bne_iff_ne.mp hleft.2) (hinside below hleft.1)
    have habove := And.intro (Nat.succ_ne_zero below) (hinside (below + 1) hright)
    split_ifs at h <;> obtain rfl := Option.some.inj h <;> assumption
  · next hleft _ =>
    rw [Bool.and_eq_true] at hleft
    obtain rfl := Option.some.inj h
    exact ⟨bne_iff_ne.mp hleft.2, hinside below hleft.1⟩
  · next _ hright =>
    cases h
    exact ⟨Nat.succ_ne_zero below, hinside (below + 1) hright⟩
  · cases h

theorem isInside_of_searchGrid {lo hi : Rat} {closed : Bool} {lead k : Int} {fuel n d : Nat}
    (h : searchGrid r lo hi closed lead fuel n = some (d, k)) :
    d ≠ 0 ∧ IsInside lo hi closed (d * 10 ^ k) := by
  induction fuel generalizing n with
  | zero => cases h
  | succ fuel ih =>
    rw [searchGrid] at h
    cases hc : gridCandidate r lo hi closed (lead - n + 1) with
    | some d' =>
      simp only [hc] at h
      obtain ⟨rfl, rfl⟩ := h
      exact isInside_of_gridCandidate hc
    | none =>
      simp only [hc] at h
      exact ih h

theorem dropZeros_spec (fuel : Nat) (d : Decimal) (hd : d.digits ≠ 0) :
    (d.dropZeros fuel).negative = d.negative ∧ (d.dropZeros fuel).digits ≠ 0 ∧
      ((d.dropZeros fuel).digits : Rat) * 10 ^ (d.dropZeros fuel).exponent
        = d.digits * 10 ^ d.exponent := by
  induction fuel generalizing d with
  | zero => exact ⟨rfl, hd, rfl⟩
  | succ fuel ih =>
    rw [Decimal.dropZeros]
    split_ifs with hzero
    · obtain ⟨hsign, hne, hvalue⟩ := ih ⟨d.negative, d.digits / 10, d.exponent + 1⟩ (by
        simp only
        omega)
      refine ⟨hsign, hne, hvalue.trans ?_⟩
      have hdigits : (d.digits : Rat) = (d.digits / 10 : Nat) * 10 := by
        exact_mod_cast (by omega : d.digits = d.digits / 10 * 10)
      rw [hdigits, zpow_add_one₀ (by norm_num)]
      ring
    · exact ⟨rfl, hd, rfl⟩

theorem exists_shortest? {negative : Bool} (hx : (finite negative m q).IsCanonical) (hm : m ≠ 0) :
    ∃ d, (finite negative m q).shortest? = some d ∧ d.negative = negative ∧ d.digits ≠ 0 ∧
      IsInside (roundingInterval m q).1 (roundingInterval m q).2 (m % 2 = 0)
        (d.digits * 10 ^ d.exponent) := by
  obtain ⟨d, hd⟩ := Option.isSome_iff_exists.mp
    (isSome_shortest? (x := finite negative m q) rfl hx.1)
  refine ⟨d, hd, ?_⟩
  rw [shortest?, if_neg hm] at hd
  dsimp only at hd
  split at hd
  · next n k hsearch =>
    cases hd
    obtain ⟨hne, hinside⟩ := isInside_of_searchGrid hsearch
    obtain ⟨hsign, hne', hvalue⟩ := dropZeros_spec 20 ⟨negative, n, k⟩ hne
    exact ⟨hsign, hne', hvalue ▸ hinside⟩
  · cases hd

theorem roundingInterval_bounds (hx : (finite false m q).IsCanonical) (hm : 0 < m) :
    (2 : Rat) ^ (-1075 : Int) ≤ (roundingInterval m q).1 ∧
      (roundingInterval m q).2 ≤ (2 : Rat) ^ (1024 : Int) := by
  obtain ⟨hlt, hmin, hmax, -⟩ := hx
  have hunit : (0 : Rat) < 2 ^ q := by positivity
  have hone : (1 : Rat) ≤ m := by exact_mod_cast hm
  have hmant : (m : Rat) + 1 ≤ 2 ^ (53 : Int) := by exact_mod_cast hlt
  rw [roundingInterval_eq]
  constructor
  · have hleast : (2 : Rat) ^ (-1075 : Int) ≤ 2 ^ q / 2 :=
      calc (2 : Rat) ^ (-1075 : Int) ≤ 2 ^ (q - 1) :=
            zpow_le_zpow_right₀ (by norm_num) (by unfold minExponent at hmin; omega)
        _ = 2 ^ q / 2 := zpow_sub_one₀ (by norm_num) q
    split_ifs <;> nlinarith
  · calc (m : Rat) * 2 ^ q + 2 ^ q / 2 ≤ 2 ^ (53 : Int) * 2 ^ q := by nlinarith
      _ = 2 ^ (53 + q) := (zpow_add₀ (by norm_num) _ _).symm
      _ ≤ (2 : Rat) ^ (1024 : Int) :=
        zpow_le_zpow_right₀ (by norm_num) (by unfold maxExponent at hmax; omega)

theorem ofDecimal_of_isInside {d : Decimal} (hx : (finite false m q).IsCanonical) (hm : 0 < m)
    (hsign : d.negative = false) (hd : d.digits ≠ 0)
    (h : IsInside (roundingInterval m q).1 (roundingInterval m q).2 (m % 2 = 0)
      (d.digits * 10 ^ d.exponent)) : Number.ofDecimal d = finite false m q := by
  obtain ⟨hleast, hgreatest⟩ := roundingInterval_bounds hx hm
  obtain ⟨hlow, hhigh⟩ := pow_le_of_decimalLength (Nat.pos_of_ne_zero hd)
  have hlength : 1 ≤ decimalLength d.digits := by
    rw [decimalLength, if_neg hd]
    exact Nat.length_toDigits_pos
  set value : Rat := d.digits * 10 ^ d.exponent with hvalue
  have hlead (k : Int) : (10 : Rat) ^ (k + d.exponent) = 10 ^ k * 10 ^ d.exponent :=
    zpow_add₀ (by norm_num) _ _
  have hsmall : ¬400 < d.exponent + (decimalLength d.digits : Int) := by
    intro hlong
    have hpow : (2 : Rat) ^ (1024 : Int) < 10 ^ (400 : Int) := by
      exact_mod_cast (by decide +kernel : 2 ^ 1024 < 10 ^ 400)
    have hge : (10 : Rat) ^ (400 : Int) ≤ value :=
      calc (10 : Rat) ^ (400 : Int)
          ≤ 10 ^ (((decimalLength d.digits - 1 : Nat) : Int) + d.exponent) :=
            zpow_le_zpow_right₀ (by norm_num) (by omega)
        _ = 10 ^ (decimalLength d.digits - 1) * 10 ^ d.exponent := by rw [hlead, zpow_natCast]
        _ ≤ value := by
          rw [hvalue]
          gcongr
          exact_mod_cast hlow
    exact absurd (hge.trans (h.2.1.trans hgreatest)) (not_le.mpr hpow)
  have hlarge : ¬d.exponent + (decimalLength d.digits : Int) < -400 := by
    intro hshort
    have hpow : (10 : Rat) ^ (-400 : Int) < 2 ^ (-1075 : Int) := by
      rw [zpow_neg, zpow_neg]
      exact inv_strictAnti₀ (by positivity)
        (by exact_mod_cast (by decide +kernel : 2 ^ 1075 < 10 ^ 400))
    have hle : value ≤ (10 : Rat) ^ (-400 : Int) :=
      calc value ≤ 10 ^ decimalLength d.digits * 10 ^ d.exponent := by
            rw [hvalue]
            gcongr
            exact_mod_cast hhigh.le
        _ = 10 ^ ((decimalLength d.digits : Int) + d.exponent) := by rw [hlead, zpow_natCast]
        _ ≤ 10 ^ (-400 : Int) := zpow_le_zpow_right₀ (by norm_num) (by omega)
    exact absurd (hleast.trans (h.1.trans hle)) (not_le.mpr hpow)
  have hrat : d.toRat = value := by
    simp [Decimal.toRat, hsign, pow10_eq_zpow, hvalue]
  simp only [Number.ofDecimal, if_neg hd, if_neg hsmall, if_neg hlarge, hrat, hsign]
  exact ofRat_of_isInside hx hm h

end Branchwise.Binary64

/-! ## Texts of decimals -/

namespace Branchwise.Number

open Guard

open Text (isLiteralDigit)

variable {n : Nat} {k : Int} {ds w p f e : List Char}

theorem ofDigits?_append_zeros (h : ofDigits? 10 ds = some n) (k : Nat) :
    ofDigits? 10 (ds ++ List.replicate k '0') = some (n * 10 ^ k) := by
  induction k with
  | zero => simpa using h
  | succ k ih =>
    rw [List.replicate_succ', ← List.append_assoc,
      ofDigits?_append_digit ih (d := 0) (by decide +kernel) (by decide), pow_succ]
    simp [mul_assoc]

theorem ofDigits?_zeros_append (k : Nat) (ds : List Char) :
    ofDigits? 10 (List.replicate k '0' ++ ds) = ofDigits? 10 ds := by
  induction k with
  | zero => rfl
  | succ k ih => exact ih

section Decimals

variable (hw : w ≠ []) (hdigits : ofDigits? 10 (w ++ f) = some n)
  (hp : p = [] ∧ f = [] ∧ IsExponent e ∨ p = '.' :: f ∧ (e = [] ∨ IsExponent e))
  (hk : exponent? some e = some k)

include hw hdigits hp hk

theorem unsignedReal?_append :
    unsignedReal? some (w ++ (p ++ e)) = some ⟨false, n, k - f.length⟩ := by
  have hdigit := isLiteralDigit_of_ofDigits? hdigits
  have hwhole c (hc : c ∈ w) := hdigit c (List.mem_append_left _ hc)
  have hfraction c (hc : c ∈ f) := hdigit c (List.mem_append_right _ hc)
  have hpart : p = [] ∧ f = [] ∨ p = '.' :: f := hp.imp (fun h => ⟨h.1, h.2.1⟩) And.left
  have hexponent : e = [] ∨ IsExponent e := hp.elim (fun h => .inr h.2.2) And.right
  have hmantissa : (w ++ (p ++ e)).takeWhile (fun c => c ≠ 'e' && c ≠ 'E') = w ++ p := by
    have hplain : ∀ c ∈ w ++ p, (decide (c ≠ 'e') && decide (c ≠ 'E')) := by
      intro c hc
      have hcase : isLiteralDigit c ∨ c = '.' := by
        rcases hpart with ⟨rfl, -⟩ | rfl
        · exact .inl (hwhole c (by simpa using hc))
        · rcases List.mem_append.1 hc with h | h
          · exact .inl (hwhole c h)
          · exact (List.mem_cons.1 h).symm.imp_left (hfraction c)
      rcases hcase with h | rfl
      · simp [ne_of_apply_ne isLiteralDigit (h.trans_ne (by decide : true ≠ isLiteralDigit 'e')),
          ne_of_apply_ne isLiteralDigit (h.trans_ne (by decide : true ≠ isLiteralDigit 'E'))]
      · rfl
    rw [← List.append_assoc, List.takeWhile_append_of_pos hplain]
    rcases hexponent with rfl | ⟨hmark, -, -, -⟩
    · simp
    · rcases hmark with rfl | rfl <;> simp
  have hbefore : (w ++ p).takeWhile (· ≠ '.') = w := by
    have hplain c (hc : c ∈ w) : decide (c ≠ '.') := decide_eq_true <|
      ne_of_apply_ne isLiteralDigit ((hwhole c hc).trans_ne (by decide))
    rw [List.takeWhile_append_of_pos hplain]
    rcases hpart with ⟨rfl, -⟩ | rfl <;> simp
  have hrest : (w ++ (p ++ e)).drop (w ++ p).length = e := by
    rw [← List.append_assoc, List.drop_left]
  have hbehind : ((w ++ p).drop w.length).drop 1 = f := by
    rw [List.drop_left]
    rcases hpart with ⟨rfl, rfl⟩ | rfl <;> rfl
  have hnonempty : w.isEmpty = false := by simpa using hw
  simp only [unsignedReal?, hmantissa, hrest, hk, hbefore, hbehind, hnonempty, hdigits,
    Option.bind_eq_bind, Option.bind_some]
  cases f with
  | nil => simp [show ofDigits? 10 w = some n by simpa using hdigits]
  | cons => rfl

/-- A number with a point, an exponent or both is read as the decimal that its digits form. -/
theorem written_decimal :
    Written .full 7 (w ++ (p ++ e)) (.real (ofDecimal ⟨false, n, k - f.length⟩)) := by
  have hdigit := isLiteralDigit_of_ofDigits? hdigits
  have hwhole c (hc : c ∈ w) := hdigit c (List.mem_append_left _ hc)
  have hreal : IsReal (w ++ (p ++ e)) := by
    rcases hp with ⟨rfl, rfl, he⟩ | ⟨rfl, he⟩
    · exact .exponent hwhole hw he
    · exact .point hwhole (fun c hc => hdigit c (List.mem_append_right _ hc)) (.inl hw) he
  have hliteral := @Literal.real _ [] _ hreal (unsignedReal?_append hw hdigits hp hk)
    (Nat.zero_le 1) nofun
  rw [List.append_nil] at hliteral
  exact .literal hliteral

end Decimals

theorem written_point (hw : w ≠ []) (hdigits : ofDigits? 10 (w ++ f) = some n) :
    Written .full 7 (w ++ '.' :: f) (.real (ofDecimal ⟨false, n, -f.length⟩)) := by
  have h := written_decimal hw hdigits (.inr ⟨rfl, .inl rfl⟩) (e := []) (k := 0) rfl
  rwa [List.append_nil, zero_sub] at h

theorem exponent?_padLeft (k : Int) (width : Nat) :
    let e := 'e' :: (if k < 0 then '-' else '+') ::
      DecimalFormat.padLeft width (Nat.toDigits 10 k.natAbs)
    IsExponent e ∧ exponent? some e = some k := by
  have hvalue : ofDigits? 10 (DecimalFormat.padLeft width (Nat.toDigits 10 k.natAbs)) =
      some k.natAbs := by
    rw [DecimalFormat.padLeft, ofDigits?_zeros_append, ofDigits?_toDigits]
  have hdigit := isLiteralDigit_of_ofDigits? hvalue
  have hne : DecimalFormat.padLeft width (Nat.toDigits 10 k.natAbs) ≠ [] := by
    simp [DecimalFormat.padLeft]
  refine ⟨@IsExponent.mk 'e' [_] _ (.inl rfl) ?_ hne hdigit, ?_⟩
  · split <;> simp
  · rcases lt_or_ge k 0 with hk | hk
    · simp [exponent?, splitSign, hvalue, hk, abs_of_neg]
    · simp [exponent?, splitSign, hvalue, hk, not_lt_of_ge]

/-- A text is read as a positive decimal that has the value of another, apart from its sign. -/
def IsTextOf (body : List Char) (d : Decimal) : Prop :=
  ∃ d', Written .full 7 body (.real (ofDecimal d')) ∧ d'.negative = false ∧ d'.digits ≠ 0 ∧
    (d'.digits : Rat) * 10 ^ d'.exponent = d.digits * 10 ^ d.exponent

section Forms

variable {d : Decimal} (hd : d.digits ≠ 0) (hvalue : ofDigits? 10 ds = some d.digits)

include hd hvalue

/-- All digits stand behind the point, with zeros in front of them. -/
theorem isTextOf_fraction {zeros : Nat} (hplace : (zeros : Int) + ds.length = -d.exponent) :
    IsTextOf ("0.".toList ++ List.replicate zeros '0' ++ ds) d := by
  have hdigits : ofDigits? 10 (['0'] ++ (List.replicate zeros '0' ++ ds)) = some d.digits :=
    (ofDigits?_zeros_append (zeros + 1) ds).trans hvalue
  refine ⟨_, written_point (by simp) hdigits, rfl, hd, ?_⟩
  have hexponent : -((List.replicate zeros '0' ++ ds).length : Int) = d.exponent := by
    rw [List.length_append, List.length_replicate]
    omega
  rw [hexponent]

/-- The point stands among the digits, or behind them all and some zeros. -/
theorem isTextOf_positional {whole : Nat} (hwhole : 0 < whole) (hne : ds ≠ [])
    (hplace : (whole : Int) = d.exponent + ds.length) :
    let shown := ds ++ List.replicate (whole - ds.length) '0'
    IsTextOf (shown.take whole ++
      '.' :: (if (shown.drop whole).isEmpty then ['0'] else shown.drop whole)) d := by
  intro shown
  rcases lt_or_ge whole ds.length with hlt | hge
  · have hshown : shown = ds := by simp [shown, Nat.sub_eq_zero_of_le hlt.le]
    have hsplit : ofDigits? 10 (ds.take whole ++ ds.drop whole) = some d.digits := by
      rw [List.take_append_drop, hvalue]
    have htake : ds.take whole ≠ [] := by simp [hne, hwhole.ne']
    have hpart : ¬(ds.drop whole).isEmpty := by simpa using hlt
    rw [hshown, if_neg hpart]
    refine ⟨_, written_point htake hsplit, rfl, hd, ?_⟩
    have hexponent : -((ds.drop whole).length : Int) = d.exponent := by
      rw [List.length_drop]
      omega
    rw [hexponent]
  · have hlength : shown.length = whole := by simp [shown, hge]
    have hdigits := ofDigits?_append_zeros (ofDigits?_append_zeros hvalue (whole - ds.length)) 1
    rw [List.take_of_length_le hlength.le, List.drop_of_length_le hlength.le, List.isEmpty_nil,
      if_pos rfl]
    refine ⟨_, written_point (by simp [shown, hne]) hdigits, rfl, by simp [hd], ?_⟩
    have hexponent : ((whole - ds.length : Nat) : Int) = d.exponent := by omega
    rw [← hexponent]
    push_cast
    rw [List.length_singleton, Nat.cast_one, zpow_neg_one, zpow_natCast]
    ring

/-- One digit stands in front of the point, and the exponent places it. -/
theorem isTextOf_scientific (hne : ds ≠ []) (he : IsExponent e)
    (hk : exponent? some e = some (d.exponent + ds.length - 1)) :
    IsTextOf (ds.take 1 ++ (if (ds.drop 1).isEmpty then [] else '.' :: ds.drop 1) ++ e) d := by
  have hsplit : ofDigits? 10 (ds.take 1 ++ ds.drop 1) = some d.digits := by
    rw [List.take_append_drop, hvalue]
  generalize hpoint : (if (ds.drop 1).isEmpty then [] else '.' :: ds.drop 1) = p
  have hp : p = [] ∧ ds.drop 1 = [] ∧ IsExponent e ∨
      p = '.' :: ds.drop 1 ∧ (e = [] ∨ IsExponent e) := by
    rw [← hpoint]
    rcases ds.drop 1 with _ | ⟨c, r⟩
    · exact .inl ⟨rfl, rfl, he⟩
    · exact .inr ⟨rfl, .inr he⟩
  rw [List.append_assoc]
  refine ⟨_, written_decimal (by simp [hne]) hsplit hp hk, rfl, hd, ?_⟩
  have hpos := List.length_pos_of_ne_nil hne
  have hexponent : d.exponent + ds.length - 1 - ((ds.drop 1).length : Int) = d.exponent := by
    rw [List.length_drop]
    omega
  rw [hexponent]

end Forms

/-- Whatever the format, a positive decimal is written in a text that reads as its value. -/
theorem exists_isTextOf_write (format : DecimalFormat) {d : Decimal} (hd : d.digits ≠ 0) :
    ∃ body, (format.write d).toList = (if d.negative then ['-'] else []) ++ body ∧
      IsTextOf body d := by
  have hvalue := ofDigits?_toDigits d.digits
  have hne : Nat.toDigits 10 d.digits ≠ [] := Nat.toDigits_ne_nil
  unfold DecimalFormat.write
  generalize Nat.toDigits 10 d.digits = ds at hvalue hne
  have hsign : (if d.negative then "-" else "").toList =
      if d.negative then ['-'] else [] := by split <;> rfl
  simp only [if_neg hd, String.toList_append, String.toList_ofList, hsign]
  refine ⟨_, rfl, ?_⟩
  split
  · split
    · exact isTextOf_fraction hd hvalue (by omega)
    · exact isTextOf_positional hd hvalue (Nat.succ_pos _) hne (by omega)
  · obtain ⟨he, hk⟩ := exponent?_padLeft (d.exponent + ds.length - 1) format.exponentDigits
    exact isTextOf_scientific hd hvalue hne he hk

/-! ## Texts of binary numbers -/

theorem written_text {x : Binary64} (hx : x.IsCanonical) :
    Written .full 6 x.text.toList (.real x) := by
  obtain ⟨negative, m, q⟩ | _ | _ := x
  case infinite | nan => exact hx.elim
  have hread : ∃ d body, (Binary64.finite negative m q).shortest? = some d ∧
      (literalFormat.write d).toList = (if negative then ['-'] else []) ++ body ∧
      Written .full 7 body (.real (.finite false m q)) := by
    rcases Nat.eq_zero_or_pos m with rfl | hm
    · obtain rfl : q = Binary64.minExponent := hx.2.2.2.resolve_left (by decide)
      refine ⟨⟨negative, 0, 0⟩, ['0', '.', '0'], rfl, by cases negative <;> rfl, ?_⟩
      exact written_point (w := ['0']) (f := ['0']) (n := 0) (by simp) (by decide)
    · obtain ⟨d, hshort, rfl, hd, hinside⟩ := Binary64.exists_shortest? hx hm.ne'
      obtain ⟨body, htext, d', hbody, hsign, hd', hvalue⟩ :=
        exists_isTextOf_write literalFormat hd
      refine ⟨d, body, hshort, htext, ?_⟩
      rwa [Binary64.ofDecimal_of_isInside hx hm hsign hd' (hvalue ▸ hinside)] at hbody
  obtain ⟨d, body, hshort, htext, hbody⟩ := hread
  rw [Binary64.text, hshort, htext]
  cases negative with
  | false => exact hbody.looser
  | true => exact .fold .nil hbody.looser (.inl trivial) rfl

end Branchwise.Number
