import Branchwise.Number.Binary64
import Mathlib.Tactic

/-!
# Seventeen digits suffice

Every finite number of the binary format has a shortest decimal.  The interval around `m · 2 ^ q`
is wider than one unit of the grid with seventeen leading digits, because `m < 2 ^ 53 < 10 ^ 16`;
so one of the two neighbours of the number on that grid lies inside the interval.
-/

namespace Branchwise.Binary64

/-- Whether the mantissa of a number has no more bits than the format gives it. -/
def FitsFormat : Binary64 → Prop
  | finite _ m _ => m < 2 ^ precision
  | _ => True

theorem ite_pow_eq_zpow (b : Nat) (e : Int) :
    (if 0 ≤ e then (Nat.pow b e.toNat : Rat) else 1 / (Nat.pow b (-e).toNat : Rat)) = b ^ e := by
  by_cases h : 0 ≤ e
  · obtain ⟨n, rfl⟩ := Int.eq_ofNat_of_zero_le h
    simp
  · obtain ⟨n, hn⟩ := Int.eq_ofNat_of_zero_le (show 0 ≤ -e by omega)
    have he : e = -(n : Int) := by omega
    subst he
    rw [if_neg h]
    simp

theorem pow2_eq_zpow (e : Int) : pow2 e = (2 : Rat) ^ e := ite_pow_eq_zpow 2 e

theorem pow10_eq_zpow (e : Int) : pow10 e = (10 : Rat) ^ e := ite_pow_eq_zpow 10 e

theorem pow_le_of_decimalLength {n : Nat} (hn : 0 < n) :
    10 ^ (decimalLength n - 1) ≤ n ∧ n < 10 ^ decimalLength n := by
  rw [decimalLength, if_neg (by omega)]
  have hpos := Nat.length_toDigits_pos (b := 10) (n := n)
  refine ⟨?_, (Nat.length_toDigits_le_iff (by omega) hpos).1 (le_refl _)⟩
  by_contra hlt
  rcases Nat.eq_zero_or_pos ((Nat.toDigits 10 n).length - 1) with h0 | h0
  · rw [h0] at hlt
    omega
  · have := (Nat.length_toDigits_le_iff (b := 10) (n := n) (by omega) h0).2 (by omega)
    omega

theorem zpow_log10Floor_le {r : Rat} (hr : 0 < r) : (10 : Rat) ^ log10Floor r ≤ r := by
  by_cases h1 : 1 ≤ r
  · rw [log10Floor, if_pos h1]
    have hfloor : 1 ≤ r.floor := Rat.le_floor_iff.2 (by exact_mod_cast h1)
    obtain ⟨n, hn⟩ := Int.eq_ofNat_of_zero_le (show 0 ≤ r.floor by omega)
    have hnpos : 0 < n := by omega
    have hlen : 0 < decimalLength n := by
      rw [decimalLength, if_neg (by omega)]
      exact Nat.length_toDigits_pos
    have hexp : (decimalLength r.floor.toNat : Int) - 1 = ((decimalLength n - 1 : Nat) : Int) := by
      rw [hn, Int.toNat_natCast]
      omega
    rw [hexp, zpow_natCast]
    calc (10 : Rat) ^ (decimalLength n - 1) ≤ (n : Rat) := by
          exact_mod_cast (pow_le_of_decimalLength hnpos).1
      _ = ((r.floor : Int) : Rat) := by rw [hn]; rfl
      _ ≤ r := Rat.floor_le r
  · rw [log10Floor, if_neg h1]
    set c := ((1 / r).ceil.toNat - 1) with hc
    -- the reciprocal is at most the power of ten above its ceiling less one
    have hinv : 1 / r ≤ (10 : Rat) ^ decimalLength c := by
      have hceil : 1 / r ≤ ((1 / r).ceil : Rat) := Rat.le_ceil
      have hlt : c < 10 ^ decimalLength c := by
        rcases Nat.eq_zero_or_pos c with h0 | h0
        · rw [h0]
          positivity
        · exact (pow_le_of_decimalLength h0).2
      have hle : (1 / r).ceil ≤ ((10 ^ decimalLength c : Nat) : Int) := by omega
      calc 1 / r ≤ ((1 / r).ceil : Rat) := hceil
        _ ≤ (((10 ^ decimalLength c : Nat) : Int) : Rat) := by exact_mod_cast hle
        _ = (10 : Rat) ^ decimalLength c := by push_cast; rfl
    rw [zpow_neg, zpow_natCast]
    exact inv_le_of_inv_le₀ hr (by simpa using hinv)

theorem gridCandidate_isSome {r lo hi : Rat} (closed : Bool) {k : Int}
    (hr : (10 : Rat) ^ k ≤ r) (hlo : lo < r) (hhi : r < hi) (hunit : (10 : Rat) ^ k < hi - lo) :
    (gridCandidate r lo hi closed k).isSome := by
  have hpos : (0 : Rat) < (10 : Rat) ^ k := by positivity
  have hdiv : 1 ≤ r / (10 : Rat) ^ k := (one_le_div hpos).2 hr
  have hfloor : 1 ≤ (r / (10 : Rat) ^ k).floor := Rat.le_floor_iff.2 (by exact_mod_cast hdiv)
  obtain ⟨n, hn⟩ := Int.eq_ofNat_of_zero_le (show 0 ≤ (r / (10 : Rat) ^ k).floor by omega)
  have hbelow : (n : Rat) * (10 : Rat) ^ k ≤ r := by
    have h := Rat.floor_le (r / (10 : Rat) ^ k)
    rw [hn] at h
    exact (le_div_iff₀ hpos).1 (by exact_mod_cast h)
  have habove : r < ((n + 1 : Nat) : Rat) * (10 : Rat) ^ k := by
    have h := Rat.lt_floor_add_one (r / (10 : Rat) ^ k)
    rw [hn] at h
    exact (div_lt_iff₀ hpos).1 (by exact_mod_cast h)
  have hstep : ((n + 1 : Nat) : Rat) * (10 : Rat) ^ k
      = (n : Rat) * (10 : Rat) ^ k + (10 : Rat) ^ k := by
    push_cast
    ring
  have hn0 : n ≠ 0 := by omega
  unfold gridCandidate
  simp only [pow10_eq_zpow, hn, Int.toNat_natCast]
  split <;> rename_i hleft hright
  · split_ifs <;> rfl
  · rfl
  · rfl
  · -- neither neighbour inside: then a unit is as wide as the interval
    exfalso
    push_cast at habove hstep
    have hbne : (n != 0) := by simpa using hn0
    cases closed
    · simp only [hbne, Bool.and_true, Bool.false_eq_true, if_false, Bool.and_eq_false_iff,
        decide_eq_false_iff_not, not_lt] at hleft hright
      push_cast at hright
      rcases hleft with hleft | hleft <;> rcases hright with hright | hright <;> linarith
    · simp only [hbne, Bool.and_true, if_true, Bool.and_eq_false_iff, decide_eq_false_iff_not,
        not_le] at hleft hright
      push_cast at hright
      rcases hleft with hleft | hleft <;> rcases hright with hright | hright <;> linarith

theorem searchGrid_isSome {r lo hi : Rat} {closed : Bool} {lead : Int} {fuel n m : Nat}
    (hn : n ≤ m) (hm : m < n + fuel)
    (h : (gridCandidate r lo hi closed (lead - m + 1)).isSome) :
    (searchGrid r lo hi closed lead fuel n).isSome := by
  induction fuel generalizing n with
  | zero => omega
  | succ fuel ih =>
    rw [searchGrid]
    cases hc : gridCandidate r lo hi closed (lead - n + 1) with
    | some d => simp
    | none =>
      have hne : n ≠ m := by
        rintro rfl
        simp [hc] at h
      simpa [hc] using ih (n := n + 1) (by omega) (by omega)

/-- The interval around a number is at least three quarters of its last binary place wide, and a
whole place unless the mantissa is the least one. -/
theorem roundingInterval_spec (m : Nat) (q : Int) :
    (roundingInterval m q).1 < (m : Rat) * 2 ^ q ∧ (m : Rat) * 2 ^ q < (roundingInterval m q).2 ∧
      ((roundingInterval m q).2 - (roundingInterval m q).1 = 2 ^ q ∨
        m = 2 ^ (precision - 1) ∧
          (roundingInterval m q).2 - (roundingInterval m q).1 = 3 / 4 * 2 ^ q) := by
  have hpos : (0 : Rat) < (2 : Rat) ^ q := by positivity
  simp only [roundingInterval, pow2_eq_zpow, Nat.pow_eq]
  by_cases h : (decide (m = 2 ^ (precision - 1)) && decide (minExponent < q))
  · rw [if_pos h]
    simp only [Bool.and_eq_true, decide_eq_true_eq] at h
    refine ⟨by linarith, by linarith, Or.inr ⟨h.1, by ring⟩⟩
  · rw [if_neg h]
    refine ⟨by linarith, by linarith, Or.inl (by ring)⟩

theorem isSome_shortest? {x : Binary64} (hx : x.isFinite) (hfit : x.FitsFormat) :
    x.shortest?.isSome := by
  cases x with
  | infinite => simp [isFinite] at hx
  | nan => simp [isFinite] at hx
  | finite negative m q =>
    by_cases hm : m = 0
    · simp [shortest?, hm]
    have hmpos : (0 : Rat) < m := by exact_mod_cast Nat.pos_of_ne_zero hm
    have hm53 : (m : Rat) < 2 ^ 53 := by
      have : m < 2 ^ 53 := hfit
      exact_mod_cast this
    have hpos : (0 : Rat) < (2 : Rat) ^ q := by positivity
    set r : Rat := (m : Rat) * 2 ^ q with hr
    have hrpos : 0 < r := by positivity
    obtain ⟨hlo, hhi, hwidth⟩ := roundingInterval_spec m q
    -- the unit of the last grid against the number that leads it
    have hunit : (10 : Rat) ^ (log10Floor r - 16) = (10 : Rat) ^ log10Floor r / 10 ^ 16 := by
      rw [zpow_sub₀ (by norm_num)]
      norm_num
    have hlead := zpow_log10Floor_le hrpos
    have hsmall : (10 : Rat) ^ (log10Floor r - 16) ≤ r / 10 ^ 16 := by
      rw [hunit]
      gcongr
    have hgrid : (gridCandidate r (roundingInterval m q).1 (roundingInterval m q).2 (m % 2 = 0)
        (log10Floor r - (17 : Nat) + 1)).isSome := by
      have hk : log10Floor r - (17 : Nat) + 1 = log10Floor r - 16 := by omega
      rw [hk]
      refine gridCandidate_isSome _ ?_ hlo hhi ?_
      · calc (10 : Rat) ^ (log10Floor r - 16) ≤ r / 10 ^ 16 := hsmall
          _ ≤ r := div_le_self hrpos.le (by norm_num)
      · refine lt_of_le_of_lt hsmall ?_
        rcases hwidth with hw | ⟨hmin, hw⟩
        · rw [hw, hr, div_lt_iff₀ (by norm_num)]
          nlinarith
        · have hval : (m : Rat) = 2 ^ 52 := by rw [hmin]; norm_num [precision]
          rw [hw, hr, hval, div_lt_iff₀ (by norm_num)]
          linarith
    have hsearch : (searchGrid r (roundingInterval m q).1 (roundingInterval m q).2 (m % 2 = 0)
        (log10Floor r) 17 1).isSome := searchGrid_isSome (by omega) (by omega) hgrid
    obtain ⟨⟨d, k⟩, hd⟩ := Option.isSome_iff_exists.1 hsearch
    have hpow : (m : Rat) * pow2 q = r := by rw [hr, pow2_eq_zpow]
    simp [shortest?, hm, hpow, hd]

theorem isSome_decimalValue? {x : Binary64} (hx : x.isFinite) (hfit : x.FitsFormat) :
    x.decimalValue?.isSome := by
  rw [decimalValue?, Option.isSome_map]
  exact isSome_shortest? hx hfit

end Branchwise.Binary64
