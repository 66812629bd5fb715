import Branchwise.Proofs.Number.Shortest

/-!
# Rounding keeps the order

On one grid rounding keeps the order, and what is rounded on a finer grid stays below the least
number of a coarser one; so rounding keeps the order of all rationals that are not negative.
-/

namespace Branchwise.Binary64

variable {r r' : Rat}

/-! ## The nearest integer -/

theorem floor_le_roundHalfEven (r : Rat) : r.floor ≤ roundHalfEven r := by
  unfold roundHalfEven
  dsimp only
  split_ifs <;> omega

theorem roundHalfEven_le_floor_add_one (r : Rat) : roundHalfEven r ≤ r.floor + 1 := by
  unfold roundHalfEven
  dsimp only
  split_ifs <;> omega

theorem roundHalfEven_intCast (n : Int) : roundHalfEven n = n := by
  unfold roundHalfEven
  have hfloor : (n : Rat).floor = n := Rat.floor_intCast n
  simp only [hfloor]
  rw [if_pos (by norm_num)]

theorem roundHalfEven_mono (h : r ≤ r') : roundHalfEven r ≤ roundHalfEven r' := by
  have hfloor : r.floor ≤ r'.floor := Rat.floor_monotone h
  rcases hfloor.lt_or_eq with hlt | heq
  · -- the upper neighbour of the one is no greater than the lower neighbour of the other
    calc roundHalfEven r ≤ r.floor + 1 := roundHalfEven_le_floor_add_one r
      _ ≤ r'.floor := hlt
      _ ≤ roundHalfEven r' := floor_le_roundHalfEven r'
  · unfold roundHalfEven
    rw [heq]
    dsimp only
    have hrest : r - r'.floor ≤ r' - r'.floor := by linarith
    split_ifs <;> first | omega | (exfalso; linarith)

theorem le_roundHalfEven {n : Int} (h : (n : Rat) ≤ r) : n ≤ roundHalfEven r :=
  roundHalfEven_intCast n ▸ roundHalfEven_mono h

theorem roundHalfEven_le {n : Int} (h : r ≤ n) : roundHalfEven r ≤ n :=
  roundHalfEven_intCast n ▸ roundHalfEven_mono h

/-! ## The grid of a rational -/

theorem log2Floor_spec (hr : 0 < r) :
    (2 : Rat) ^ log2Floor r ≤ r ∧ r < (2 : Rat) ^ (log2Floor r + 1) := by
  have hnum : 0 < r.num.natAbs := Int.natAbs_pos.mpr (Rat.num_pos.mpr hr).ne'
  have hr_eq : r = (r.num.natAbs : Rat) / (r.den : Rat) := by
    have hcast : ((r.num.natAbs : Int) : Rat) = r.num := by
      rw [Int.natAbs_of_nonneg (Rat.num_pos.mpr hr).le]
    rw [← Int.cast_natCast r.num.natAbs, hcast, Rat.num_div_den]
  generalize hn : r.num.natAbs = n at hnum hr_eq
  generalize hd : r.den = d at hr_eq
  have hden : 0 < d := hd ▸ r.den_pos
  have hn_low : (2 : Rat) ^ n.log2 ≤ n := by exact_mod_cast Nat.log2_self_le hnum.ne'
  have hn_high : (n : Rat) < 2 ^ (n.log2 + 1) := by exact_mod_cast Nat.lt_log2_self
  have hd_low : (2 : Rat) ^ d.log2 ≤ d := by exact_mod_cast Nat.log2_self_le hden.ne'
  have hd_high : (d : Rat) < 2 ^ (d.log2 + 1) := by exact_mod_cast Nat.lt_log2_self
  have hd_pos : (0 : Rat) < d := by exact_mod_cast hden
  -- the guess from the lengths of numerator and denominator is right or one too high
  have hhigh : r < (2 : Rat) ^ ((n.log2 : Int) - d.log2 + 1) := by
    calc r = n / d := hr_eq
      _ < 2 ^ (n.log2 + 1) / d := by gcongr
      _ ≤ 2 ^ (n.log2 + 1) / 2 ^ d.log2 := by gcongr
      _ = (2 : Rat) ^ ((n.log2 : Int) - d.log2 + 1) := by
        rw [← zpow_natCast, ← zpow_natCast, ← zpow_sub₀ (by norm_num)]
        congr 1
        push_cast
        ring
  have hlow : (2 : Rat) ^ ((n.log2 : Int) - d.log2 - 1) ≤ r := by
    calc (2 : Rat) ^ ((n.log2 : Int) - d.log2 - 1) = 2 ^ n.log2 / 2 ^ (d.log2 + 1) := by
          rw [← zpow_natCast, ← zpow_natCast, ← zpow_sub₀ (by norm_num)]
          congr 1
          push_cast
          ring
      _ ≤ n / 2 ^ (d.log2 + 1) := by gcongr
      _ ≤ n / d := by gcongr
      _ = r := hr_eq.symm
  unfold log2Floor
  simp only [hn, hd, pow2_eq_zpow]
  split_ifs with hguess
  · exact ⟨hguess, hhigh⟩
  · exact ⟨hlow, by simpa using hguess⟩

def lastPlace (r : Rat) : Int := max (log2Floor r - 52) minExponent

/-- The nearest number with the last place of a rational, without a bound on its size. -/
def rounded (r : Rat) : Rat := roundHalfEven (r / 2 ^ lastPlace r) * 2 ^ lastPlace r

theorem div_lastPlace_lt (hr : 0 < r) : r / 2 ^ lastPlace r < (2 : Rat) ^ 53 := by
  rw [div_lt_iff₀ (by positivity)]
  calc r < (2 : Rat) ^ (log2Floor r + 1) := (log2Floor_spec hr).2
    _ ≤ (2 : Rat) ^ (53 + lastPlace r) := by
      refine zpow_le_zpow_right₀ (by norm_num) ?_
      unfold lastPlace
      omega
    _ = (2 : Rat) ^ 53 * 2 ^ lastPlace r := by
      rw [zpow_add₀ (by norm_num)]
      norm_cast

theorem le_div_lastPlace (hr : 0 < r) (h : minExponent < lastPlace r) :
    (2 : Rat) ^ 52 ≤ r / 2 ^ lastPlace r := by
  have hplace : lastPlace r = log2Floor r - 52 := by
    unfold lastPlace at h ⊢
    omega
  rw [le_div_iff₀ (by positivity)]
  calc (2 : Rat) ^ 52 * 2 ^ lastPlace r = (2 : Rat) ^ (52 + lastPlace r) := by
        rw [zpow_add₀ (by norm_num)]
        norm_cast
    _ = (2 : Rat) ^ log2Floor r := by rw [hplace, add_sub_cancel]
    _ ≤ r := (log2Floor_spec hr).1

theorem log2Floor_mono (hr : 0 < r) (h : r ≤ r') : log2Floor r ≤ log2Floor r' := by
  have hlt : (2 : Rat) ^ log2Floor r < 2 ^ (log2Floor r' + 1) :=
    calc (2 : Rat) ^ log2Floor r ≤ r := (log2Floor_spec hr).1
      _ ≤ r' := h
      _ < 2 ^ (log2Floor r' + 1) := (log2Floor_spec (hr.trans_le h)).2
  exact Int.lt_add_one_iff.mp ((zpow_lt_zpow_iff_right₀ (by norm_num)).mp hlt)

theorem lastPlace_mono (hr : 0 < r) (h : r ≤ r') : lastPlace r ≤ lastPlace r' :=
  max_le_max_right _ (sub_le_sub_right (log2Floor_mono hr h) 52)

/-! ## Rounding -/

theorem rounded_eq_self {n : Int} (h : r = n * 2 ^ lastPlace r) : rounded r = r := by
  have hdiv : r / 2 ^ lastPlace r = n := by
    rw [div_eq_iff (by positivity)]
    exact h
  rw [rounded, hdiv, roundHalfEven_intCast, ← h]

theorem rounded_zero : rounded 0 = 0 := rounded_eq_self (n := 0) (by simp)

theorem rounded_nonneg (hr : 0 ≤ r) : 0 ≤ rounded r := by
  have hround : 0 ≤ roundHalfEven (r / 2 ^ lastPlace r) :=
    le_roundHalfEven (by exact_mod_cast div_nonneg hr (by positivity))
  exact mul_nonneg (by exact_mod_cast hround) (by positivity)

theorem rounded_mono (hr : 0 ≤ r) (h : r ≤ r') : rounded r ≤ rounded r' := by
  rcases hr.eq_or_lt with rfl | hr
  · rw [rounded_zero]
    exact rounded_nonneg h
  rcases (lastPlace_mono hr h).lt_or_eq with hlt | heq
  · -- the finer grid is bounded by the least number of the coarser one
    have hmin : minExponent < lastPlace r' := (le_max_right _ _).trans_lt hlt
    have hfine : roundHalfEven (r / 2 ^ lastPlace r) ≤ 2 ^ 53 :=
      roundHalfEven_le (by exact_mod_cast (div_lastPlace_lt hr).le)
    have hcoarse : 2 ^ 52 ≤ roundHalfEven (r' / 2 ^ lastPlace r') :=
      le_roundHalfEven (by exact_mod_cast le_div_lastPlace (hr.trans_le h) hmin)
    calc rounded r ≤ 2 ^ 53 * 2 ^ lastPlace r := by
          unfold rounded
          gcongr
          exact_mod_cast hfine
      _ = 2 ^ 52 * (2 : Rat) ^ (lastPlace r + 1) := by
          rw [zpow_add_one₀ (by norm_num)]
          ring
      _ ≤ 2 ^ 52 * (2 : Rat) ^ lastPlace r' := by
          gcongr
          · norm_num
          · omega
      _ ≤ rounded r' := by
          unfold rounded
          gcongr
          exact_mod_cast hcoarse
  · unfold rounded
    rw [heq]
    gcongr
    exact_mod_cast roundHalfEven_mono (by gcongr)

theorem rounded_natCast {n : Nat} (hn : n ≤ 2 ^ 53) : rounded (n : Rat) = n := by
  rcases Nat.eq_zero_or_pos n with rfl | hpos
  · exact rounded_zero
  have hr : (0 : Rat) < n := by exact_mod_cast hpos
  rcases le_or_gt (lastPlace (n : Rat)) 0 with hplace | hplace
  · -- the last place is a half, a quarter or less, so that a whole number is on the grid
    obtain ⟨k, hk⟩ := Int.eq_ofNat_of_zero_le (neg_nonneg.mpr hplace)
    refine rounded_eq_self (n := n * 2 ^ k) ?_
    rw [← neg_neg (lastPlace (n : Rat)), hk, zpow_neg, zpow_natCast]
    push_cast
    field_simp
  · -- only the greatest of these numbers has a last place above the units
    have hlarge : 2 ^ 53 ≤ n := by
      have hmin : minExponent < lastPlace (n : Rat) := lt_trans (by decide) hplace
      have hle := (le_div_iff₀ (by positivity)).mp (le_div_lastPlace hr hmin)
      have htwo : (2 : Rat) ≤ 2 ^ lastPlace (n : Rat) := by
        calc (2 : Rat) = 2 ^ (1 : Int) := by norm_num
          _ ≤ 2 ^ lastPlace (n : Rat) := zpow_le_zpow_right₀ (by norm_num) hplace
      have : (2 : Rat) ^ 53 ≤ n := by
        calc (2 : Rat) ^ 53 = 2 ^ 52 * 2 := by norm_num
          _ ≤ 2 ^ 52 * 2 ^ lastPlace (n : Rat) := by gcongr
          _ ≤ n := hle
      exact_mod_cast this
    obtain rfl : n = 2 ^ 53 := le_antisymm hn hlarge
    have hlast : lastPlace ((2 ^ 53 : Nat) : Rat) = 1 := by decide +kernel
    refine rounded_eq_self (n := 2 ^ 52) ?_
    rw [hlast]
    norm_num

theorem toRat?_inRange {m : Nat} {e : Int} (hm : m < 2 ^ 53)
    (hlead : maxExponent < e → 2 ^ 52 ≤ m) :
    (if maxExponent < e then infinite false else finite false m e).toRat? =
      if (m * 2 ^ e : Rat) < 2 ^ (53 + maxExponent) then some (m * 2 ^ e : Rat) else none := by
  have hm' : (m : Rat) < 2 ^ (53 : Int) := by exact_mod_cast hm
  have hlead' : maxExponent < e → (2 : Rat) ^ (52 : Int) ≤ m := fun he => by
    exact_mod_cast hlead he
  split_ifs with he hlt hlt
  · have hle : (2 : Rat) ^ (53 + maxExponent) ≤ m * 2 ^ e :=
      calc (2 : Rat) ^ (53 + maxExponent) ≤ 2 ^ (52 + e) :=
            zpow_le_zpow_right₀ (by norm_num) (by omega)
        _ = 2 ^ (52 : Int) * 2 ^ e := zpow_add₀ (by norm_num) _ _
        _ ≤ m * 2 ^ e := mul_le_mul_of_nonneg_right (hlead' he) (by positivity)
    exact absurd hlt (not_lt.mpr hle)
  · rfl
  · simp [toRat?, pow2_eq_zpow]
  · have hsmall : (m * 2 ^ e : Rat) < 2 ^ (53 + maxExponent) :=
      calc (m * 2 ^ e : Rat) < 2 ^ (53 : Int) * 2 ^ e :=
            mul_lt_mul_of_pos_right hm' (by positivity)
        _ = 2 ^ (53 + e) := (zpow_add₀ (by norm_num) _ _).symm
        _ ≤ (2 : Rat) ^ (53 + maxExponent) := zpow_le_zpow_right₀ (by norm_num) (by omega)
    exact absurd hsmall hlt

/-- The number nearest to a positive rational has the mantissa that is nearest in its last place; a
carry takes the leading bit to the next place. -/
theorem ofRat_eq (hr : 0 < r) {m : Nat} (hm : roundHalfEven (r / 2 ^ lastPlace r) = m) :
    ofRat r false =
      if m = 2 ^ 53 then
        if maxExponent < lastPlace r + 1 then infinite false
        else finite false (2 ^ 52) (lastPlace r + 1)
      else if maxExponent < lastPlace r then infinite false else finite false m (lastPlace r) := by
  have hplace : max (log2Floor r - 52) minExponent = lastPlace r := rfl
  have hprecision : precision = 53 := rfl
  simp only [ofRat, if_neg hr.not_gt, if_neg hr.ne', hplace, pow2_eq_zpow, hm, Int.toNat_natCast,
    Nat.pow_eq, hprecision]
  by_cases hcarry : m = 2 ^ 53
  · simp only [if_pos hcarry]
  · simp only [if_neg hcarry]

theorem toRat?_ofRat (hr : 0 ≤ r) :
    (ofRat r false).toRat? =
      if rounded r < 2 ^ (53 + maxExponent) then some (rounded r) else none := by
  rcases hr.eq_or_lt with rfl | hr
  · rw [rounded_zero, if_pos (by positivity)]
    simp [ofRat, zero, toRat?]
  have hround : 0 ≤ roundHalfEven (r / 2 ^ lastPlace r) :=
    le_roundHalfEven (by exact_mod_cast div_nonneg hr.le (by positivity))
  obtain ⟨m, hm⟩ := Int.eq_ofNat_of_zero_le hround
  have hvalue : rounded r = m * 2 ^ lastPlace r := by
    rw [rounded, hm]
    norm_cast
  have hle : m ≤ 2 ^ 53 := by
    have h : roundHalfEven (r / 2 ^ lastPlace r) ≤ ((2 ^ 53 : Nat) : Int) :=
      roundHalfEven_le (by exact_mod_cast (div_lastPlace_lt hr).le)
    rw [hm] at h
    exact_mod_cast h
  rw [ofRat_eq hr hm, hvalue]
  by_cases hcarry : m = 2 ^ 53
  · rw [if_pos hcarry, toRat?_inRange (by norm_num) fun _ => le_rfl, hcarry]
    have heq : (((2 ^ 52 : Nat) : Rat) * 2 ^ (lastPlace r + 1)) =
        ((2 ^ 53 : Nat) : Rat) * 2 ^ lastPlace r := by
      rw [zpow_add_one₀ (by norm_num)]
      push_cast
      ring
    rw [heq]
  · rw [if_neg hcarry, toRat?_inRange (lt_of_le_of_ne hle hcarry)]
    intro hmax
    have hmin : minExponent < lastPlace r := lt_trans (by decide) hmax
    have h : ((2 ^ 52 : Nat) : Int) ≤ roundHalfEven (r / 2 ^ lastPlace r) :=
      le_roundHalfEven (by exact_mod_cast le_div_lastPlace hr hmin)
    rw [hm] at h
    exact_mod_cast h

end Branchwise.Binary64
