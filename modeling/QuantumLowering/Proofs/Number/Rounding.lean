import Mathlib.Data.Int.Log
import Mathlib.Data.Rat.Floor
import Mathlib.Tactic.FieldSimp
import Mathlib.Tactic.Linarith
import Mathlib.Tactic.Positivity
import Mathlib.Tactic.Ring
import QuantumLowering.Number.Shortest

namespace QuantumLowering.Binary64

variable {num den : Nat}

theorem shifted_le_iff (num : Nat) (pos : 0 < den) (k : Int) :
    (if 0 ≤ k then den <<< k.toNat ≤ num else den ≤ num <<< (-k).toNat) ↔
      (2 : ℚ) ^ k ≤ num / den := by
  have pos' : (0 : ℚ) < den := by exact_mod_cast pos
  rw [le_div_iff₀ pos']
  by_cases sign : 0 ≤ k
  · obtain ⟨n, rfl⟩ := Int.eq_ofNat_of_zero_le sign
    rw [if_pos sign, Int.toNat_natCast, Nat.shiftLeft_eq, zpow_natCast, mul_comm den]
    exact_mod_cast Iff.rfl
  · obtain ⟨n, hn⟩ := Int.eq_ofNat_of_zero_le (show 0 ≤ -k by omega)
    obtain rfl : k = -(n : Int) := by omega
    have two : (0 : ℚ) < 2 ^ n := by positivity
    rw [if_neg sign, neg_neg, Int.toNat_natCast, Nat.shiftLeft_eq, zpow_neg, zpow_natCast,
      inv_mul_le_iff₀ two, mul_comm num]
    exact_mod_cast Iff.rfl

theorem ratio_lt_two_zpow (pos : 0 < num) (pos' : 0 < den) :
    (num : ℚ) / den < 2 ^ ((num.log2 : Int) - den.log2 + 1) := by
  have upper : (num : ℚ) < 2 ^ (num.log2 + 1) := by exact_mod_cast Nat.lt_log2_self
  have lower : (2 : ℚ) ^ den.log2 ≤ den := by exact_mod_cast Nat.log2_self_le pos'.ne'
  have den_pos : (0 : ℚ) < den := by exact_mod_cast pos'
  have two : (0 : ℚ) < 2 ^ den.log2 := by positivity
  have split : (2 : ℚ) ^ ((num.log2 : Int) - den.log2 + 1) =
      2 ^ (num.log2 + 1) / 2 ^ den.log2 := by
    rw [show (num.log2 : Int) - den.log2 + 1 = (num.log2 + 1 : Nat) - (den.log2 : Nat) by omega,
      zpow_sub₀ two_ne_zero, zpow_natCast, zpow_natCast]
  rw [split, div_lt_div_iff₀ den_pos two]
  calc (num : ℚ) * 2 ^ den.log2 ≤ num * den := by gcongr
    _ < 2 ^ (num.log2 + 1) * den := by gcongr

theorem two_zpow_lt_ratio (pos : 0 < num) (pos' : 0 < den) :
    (2 : ℚ) ^ ((num.log2 : Int) - den.log2 - 1) < num / den := by
  have ratio_pos : (0 : ℚ) < den / num := by positivity
  have inverse : (2 : ℚ) ^ ((num.log2 : Int) - den.log2 - 1) =
      (2 ^ ((den.log2 : Int) - num.log2 + 1))⁻¹ := by
    rw [← zpow_neg, show (num.log2 : Int) - den.log2 - 1 = -((den.log2 : Int) - num.log2 + 1) by
      omega]
  rw [inverse, ← inv_div (den : ℚ), inv_lt_inv₀ (zpow_pos two_pos _) ratio_pos]
  exact ratio_lt_two_zpow pos' pos

theorem binaryOrder_eq_log (pos : 0 < num) (pos' : 0 < den) :
    binaryOrder num den = Int.log 2 ((num : ℚ) / den) := by
  have ratio_pos : (0 : ℚ) < num / den := by positivity
  have upper := (Int.lt_zpow_iff_log_lt one_lt_two ratio_pos).1 (ratio_lt_two_zpow pos pos')
  have lower := (Int.zpow_le_iff_le_log one_lt_two ratio_pos).1 (two_zpow_lt_ratio pos pos').le
  have reached := shifted_le_iff num pos' ((num.log2 : Int) - den.log2)
  have order := Int.zpow_le_iff_le_log (x := (num.log2 : Int) - den.log2) one_lt_two ratio_pos
  push_cast at order
  simp only [binaryOrder, reached, order]
  split <;> omega

theorem roundQuotient_mul_left (tie : Tie) (num den : Nat) {c : Nat} (pos : 0 < c) :
    roundQuotient tie (c * num) (c * den) = roundQuotient tie num den := by
  have less : 2 * (c * (num % den)) < c * den ↔ 2 * (num % den) < den := by
    rw [Nat.mul_left_comm]
    exact Nat.mul_lt_mul_left pos
  have more : c * den < 2 * (c * (num % den)) ↔ den < 2 * (num % den) := by
    rw [Nat.mul_left_comm 2]
    exact Nat.mul_lt_mul_left pos
  simp only [roundQuotient, Nat.mul_div_mul_left _ _ pos, Nat.mul_mod_mul_left, less, more]

theorem roundQuotient_mul_self (tie : Tie) (n : Nat) {den : Nat} (pos : 0 < den) :
    roundQuotient tie (n * den) den = n := by
  simp [roundQuotient, pos]

theorem nearestPlace_mul_left {c : Nat} (above : 0 < c) (pos : 0 < num) (pos' : 0 < den) :
    nearestPlace (c * num) (c * den) = nearestPlace num den := by
  have order : binaryOrder (c * num) (c * den) = binaryOrder num den := by
    have ne : (c : ℚ) ≠ 0 := by exact_mod_cast above.ne'
    rw [binaryOrder_eq_log (Nat.mul_pos above pos) (Nat.mul_pos above pos'),
      binaryOrder_eq_log pos pos', Nat.cast_mul, Nat.cast_mul, mul_div_mul_left _ _ ne]
  simp only [nearestPlace, order, Nat.shiftLeft_eq, Nat.mul_assoc,
    roundQuotient_mul_left _ _ _ above]

theorem nearestPlace_congr {num' den' : Nat} (pos : 0 < num) (pos' : 0 < num') (below : 0 < den)
    (below' : 0 < den') (same : num * den' = num' * den) :
    nearestPlace num den = nearestPlace num' den' := by
  rw [← nearestPlace_mul_left below' pos below, ← nearestPlace_mul_left below pos' below',
    mul_comm den' num, same, mul_comm num' den, mul_comm den' den]

variable {x : Binary64}

theorem neg_1074_le_scale (x : Binary64) : -1074 ≤ x.scale := by
  unfold scale
  split
  · omega
  · have : 1 ≤ x.magnitude / binade := (Nat.one_le_div_iff (by decide)).2 (by omega)
    omega

theorem significand_lt (x : Binary64) : x.significand < 2 * binade := by
  have := Nat.mod_lt x.magnitude (show 0 < binade by decide)
  unfold significand
  split <;> omega

/-- The significand fills its binade, but for the smallest numbers. -/
theorem binade_le_significand (x : Binary64) : binade ≤ x.significand ∨ x.scale = -1074 := by
  unfold significand scale
  split
  · exact .inr rfl
  · exact .inl (by omega)

theorem significand_pos (nonzero : x.magnitude ≠ 0) : 0 < x.significand := by
  have : 0 < binade := by decide
  unfold significand
  split <;> omega

theorem magnitude_eq (x : Binary64) :
    (x.scale + 1074).toNat * binade + x.significand = x.magnitude := by
  unfold significand scale
  split
  · simp
  · have one : 1 ≤ x.magnitude / binade := (Nat.one_le_div_iff (by decide)).2 (by omega)
    have places : (((x.magnitude / binade : Nat) : Int) - 1075 + 1074).toNat =
        x.magnitude / binade - 1 := by omega
    have whole := Nat.div_add_mod' x.magnitude binade
    have less : (x.magnitude / binade - 1) * binade + binade = x.magnitude / binade * binade := by
      rw [← Nat.succ_mul, Nat.succ_eq_add_one, Nat.sub_add_cancel one]
    rw [places]
    omega

theorem ratio_pos (nonzero : x.magnitude ≠ 0) : 0 < x.ratio.1 := by
  have := significand_pos nonzero
  unfold ratio
  split <;> simp [Nat.shiftLeft_eq, this]

theorem ratio_den_pos (x : Binary64) : 0 < x.ratio.2 := by
  unfold ratio
  split <;> simp [Nat.shiftLeft_eq]

theorem ratio_eq (x : Binary64) :
    (x.ratio.1 : ℚ) / x.ratio.2 = x.significand * 2 ^ x.scale := by
  unfold ratio
  split
  case isTrue sign =>
    obtain ⟨n, hn⟩ := Int.eq_ofNat_of_zero_le sign
    simp [hn, Nat.shiftLeft_eq]
  case isFalse sign =>
    obtain ⟨n, hn⟩ := Int.eq_ofNat_of_zero_le (show 0 ≤ -x.scale by omega)
    obtain hn' : x.scale = -(n : Int) := by omega
    simp [hn', Nat.shiftLeft_eq, div_eq_mul_inv]

theorem binaryOrder_ratio (nonzero : x.magnitude ≠ 0) :
    binaryOrder x.ratio.1 x.ratio.2 = Nat.log 2 x.significand + x.scale := by
  have above : (0 : ℚ) < x.significand := by exact_mod_cast significand_pos nonzero
  have moved : (0 : ℚ) < 2 ^ x.scale := zpow_pos two_pos _
  have lower : (2 : ℚ) ^ ((Nat.log 2 x.significand : Int) + x.scale) ≤
      x.significand * 2 ^ x.scale := by
    rw [zpow_add₀ two_ne_zero, zpow_natCast]
    gcongr
    exact_mod_cast Nat.pow_log_le_self 2 (significand_pos nonzero).ne'
  have upper : (x.significand : ℚ) * 2 ^ x.scale <
      2 ^ ((Nat.log 2 x.significand : Int) + x.scale + 1) := by
    rw [add_right_comm, zpow_add₀ two_ne_zero]
    gcongr
    exact_mod_cast Nat.lt_pow_succ_log_self one_lt_two x.significand
  have low := (Int.zpow_le_iff_le_log one_lt_two (mul_pos above moved)).1 lower
  have high := (Int.lt_zpow_iff_log_lt one_lt_two (mul_pos above moved)).1 upper
  rw [binaryOrder_eq_log (ratio_pos nonzero) x.ratio_den_pos, ratio_eq]
  omega

theorem nearestPlace_ratio (nonzero : x.magnitude ≠ 0) :
    nearestPlace x.ratio.1 x.ratio.2 = x.magnitude := by
  -- the grid on which the ratio is rounded is the one of its own scale
  have grid : max (binaryOrder x.ratio.1 x.ratio.2 - 52) (-1074) = x.scale := by
    have short : Nat.log 2 x.significand < 53 :=
      Nat.log_lt_of_lt_pow (significand_pos nonzero).ne' x.significand_lt
    have least := x.neg_1074_le_scale
    rw [binaryOrder_ratio nonzero]
    rcases x.binade_le_significand with full | small
    · have long : 52 ≤ Nat.log 2 x.significand := Nat.le_log_of_pow_le one_lt_two full
      omega
    · omega
  have steps : (if 0 ≤ x.scale then roundQuotient .toEven x.ratio.1 (x.ratio.2 <<< x.scale.toNat)
      else roundQuotient .toEven (x.ratio.1 <<< (-x.scale).toNat) x.ratio.2) = x.significand := by
    by_cases sign : 0 ≤ x.scale
    · simp only [ratio, if_pos sign, Nat.shiftLeft_eq, Nat.one_mul]
      exact roundQuotient_mul_self _ _ (Nat.two_pow_pos _)
    · simp only [ratio, if_neg sign, Nat.shiftLeft_eq, Nat.one_mul]
      exact roundQuotient_mul_self _ _ (Nat.two_pow_pos _)
  simp only [nearestPlace, grid, steps]
  exact x.magnitude_eq

theorem ofRatio?_eq_some (nonzero : x.magnitude ≠ 0) (pos : 0 < den)
    (same : num * x.ratio.2 = x.ratio.1 * den) : ofRatio? x.negative num den = some x := by
  have above : 0 < num := by
    have product := Nat.mul_pos (ratio_pos nonzero) pos
    exact Nat.pos_of_mul_pos_right (same ▸ product)
  have place : nearestPlace num den = x.magnitude := by
    rw [nearestPlace_congr above (ratio_pos nonzero) pos x.ratio_den_pos same]
    exact nearestPlace_ratio nonzero
  simp [ofRatio?, place, x.finite]

theorem ofDecimal?_eq_ofRatio? {negative : Bool} {n : Nat} {e : Int} (pos : 0 < n) (most : e ≤ 400)
    (least : -400 ≤ (n.log2 : Int) + 1 + e) :
    ofDecimal? negative n e = ofRatio? negative (n * 10 ^ e.toNat) (10 ^ (-e).toNat) := by
  have low : ¬ ((n.log2 : Int) + 1 + e < -400) := by omega
  rw [ofDecimal?, if_neg pos.ne', if_neg (by omega), if_neg low]
  by_cases sign : 0 ≤ e
  · rw [if_pos sign, show (-e).toNat = 0 by omega]
    rfl
  · rw [if_neg sign, show e.toNat = 0 by omega, Nat.pow_zero, Nat.mul_one]
    rfl

theorem readsBack_exactDecimal (nonzero : x.magnitude ≠ 0) : x.readsBack x.exactDecimal := by
  have pos := significand_pos nonzero
  unfold readsBack exactDecimal
  rw [decide_eq_true_iff]
  by_cases sign : 0 ≤ x.scale
  · have whole : 0 < x.significand <<< x.scale.toNat := by simp [Nat.shiftLeft_eq, pos]
    simp only [if_pos sign]
    rw [ofDecimal?_eq_ofRatio? whole (by omega) (by omega)]
    apply ofRatio?_eq_some nonzero (by decide)
    simp [ratio, if_pos sign]
  · obtain ⟨n, hn⟩ := Int.eq_ofNat_of_zero_le (show 0 ≤ -x.scale by omega)
    obtain scale : x.scale = -(n : Int) := by omega
    have five : 0 < 5 ^ n := Nat.pow_pos (by decide)
    have long : 2 * n ≤ (x.significand * 5 ^ n).log2 := by
      rw [Nat.le_log2 (Nat.mul_pos pos five).ne']
      calc 2 ^ (2 * n) = 4 ^ n := by rw [Nat.pow_mul]
        _ ≤ 5 ^ n := Nat.pow_le_pow_left (by decide) n
        _ ≤ x.significand * 5 ^ n := Nat.le_mul_of_pos_left _ pos
    simp only [if_neg sign, hn, Int.toNat_natCast, Nat.pow_eq]
    rw [ofDecimal?_eq_ofRatio? (Nat.mul_pos pos five) (by omega) (by omega)]
    apply ofRatio?_eq_some nonzero (Nat.pow_pos (by decide))
    have ten : 10 ^ n = 5 ^ n * 2 ^ n := by rw [← Nat.mul_pow]
    have ratio : x.ratio = (x.significand, 2 ^ n) := by
      simp only [ratio, if_neg sign, hn, Int.toNat_natCast, Nat.shiftLeft_eq, Nat.one_mul]
    simp [ratio, scale, ten, Nat.mul_assoc]

/-- Whatever the ties, the decimal found for a number reads back as the number. -/
theorem readsBack_shortest (tie : Tie) (nonzero : x.magnitude ≠ 0) :
    x.readsBack (x.shortest tie) := by
  simp only [shortest]
  generalize List.flatten _ = candidates
  cases found : candidates.find? x.readsBack with
  | none => exact readsBack_exactDecimal nonzero
  | some d => exact List.find?_some found

theorem digits_pos_of_readsBack {d : Decimal} (nonzero : x.magnitude ≠ 0) (reads : x.readsBack d) :
    0 < d.digits := by
  apply Nat.pos_of_ne_zero
  intro none
  simp only [readsBack, none, ofDecimal?, if_true, decide_eq_true_eq, Option.some.injEq] at reads
  exact nonzero (reads ▸ rfl)

/-- Zeros moved from the power of ten into the digits do not change what a decimal reads as. -/
theorem ofDecimal?_mul_ten_pow {negative : Bool} {n k : Nat} (pos : 0 < n) (most : k ≤ 400) :
    ofDecimal? negative (n * 10 ^ (k + 1)) (-1) = ofDecimal? negative n k := by
  have ten : 0 < n * 10 ^ (k + 1) := Nat.mul_pos pos (Nat.pow_pos (by decide))
  have ten' : 0 < n * 10 ^ k := Nat.mul_pos pos (Nat.pow_pos (by decide))
  rw [ofDecimal?_eq_ofRatio? ten (by omega) (by omega),
    ofDecimal?_eq_ofRatio? pos (by omega) (by omega)]
  have place : nearestPlace (n * 10 ^ (k + 1)) 10 = nearestPlace (n * 10 ^ k) 1 :=
    nearestPlace_congr ten ten' (by decide) (by decide)
      (by rw [Nat.pow_succ, Nat.mul_one, Nat.mul_assoc])
  simp [ofRatio?, place]

end QuantumLowering.Binary64
