import Mathlib.NumberTheory.Padics.PadicVal.Basic
import Mathlib.Tactic.FieldSimp
import Mathlib.Tactic.Qify
import Phrasebook.Proofs.Decimal.Neighbours
import Phrasebook.Proofs.Decimal.Shortest

/-!
# Shortest decimals are not close to a bound

A shortest decimal rounds to its fraction, but what it is read as has been rounded twice in double
precision, so it is known to round to the fraction only if the decimal is not too close to a bound
of what does. Where the decimal counts by less than the last bit it lies in the middle. Otherwise it
is a multiple of the least power of ten that is not less than the last bit, and a bound is a
multiple of half the last bit. How close two such multiples come to each other is seen from the
fractions that enclose the ratio of the two units, which are computed for every exponent of single
precision. Only for one of them there is a decimal that is too close, which belongs to a single
fraction.

A decimal that is a bound itself is exact in double precision, so it is read as it is.

* `BinaryFraction.around_far`, `BinaryFraction.around_exception`: the fractions for all exponents.
* `BinaryFraction.Clear`: a number is a bound, or it is not close to one.
* `BinaryFraction.IsSingle.clear`: shortest decimals are clear, but for one.
* `BinaryFraction.IsSingle.attracts_of_close`: what is as close to a clear decimal as two roundings
  leave it rounds to the fraction too.
-/

namespace Phrasebook

namespace BinaryFraction

/-! ### Powers of ten above the last bit -/

/-- The least power of ten that is not less than a power of two. -/
def coarse (q : ℤ) : ℤ := -(-q * 30103 / 100000)

/-- The numerator of that power of ten in halves of the power of two. -/
def coarseNum (q : ℤ) : ℕ := powerNumerator 10 (coarse q) * powerDenominator 2 (q - 1)

/-- Its denominator. -/
def coarseDen (q : ℤ) : ℕ := powerNumerator 2 (q - 1) * powerDenominator 10 (coarse q)

/-- A bound of the digits that a decimal with this exponent has. -/
def digitLimit (q : ℤ) : ℕ := 2 ^ 25 * coarseDen q / coarseNum q + 1

/-- The fractions around the power of ten with denominators up to the digits' bound. -/
def around (q : ℤ) : Neighbours :=
  .close (coarseNum q) (coarseDen q) (digitLimit q) 50 (.whole (coarseNum q) (coarseDen q))

theorem coarse_bounds : ∀ q ∈ Finset.Icc (-149 : ℤ) 104,
    powerNumerator 2 q * powerDenominator 10 (coarse q) ≤
        powerNumerator 10 (coarse q) * powerDenominator 2 q ∧
      256 * (powerNumerator 10 (coarse q - 1) * powerDenominator 2 q) ≤
        255 * (powerNumerator 2 q * powerDenominator 10 (coarse q - 1)) := by
  decide +kernel

/-- A multiple of a power of ten is not close to a half of the last bit without being one: either
because both are multiples of the same number, or because the best fractions are not close. -/
theorem around_far : ∀ q ∈ Finset.Icc (-149 : ℤ) 104, q ≠ -107 →
    3 * (digitLimit q * coarseNum q) ≤ 2 ^ 53 * Nat.gcd (coarseNum q) (coarseDen q) ∨
      digitLimit q ≤ (around q).lowDen + (around q).highDen ∧
        3 * ((around q).lowDen * coarseNum q) <
          2 ^ 53 * (around q).above (coarseNum q) (coarseDen q) ∧
        3 * ((around q).highDen * coarseNum q) <
          2 ^ 53 * (around q).below (coarseNum q) (coarseDen q) := by
  decide +kernel

/-- For one exponent a single decimal is too close. -/
theorem around_exception :
    3 * ((around (-107)).lowDen * coarseNum (-107)) <
        2 ^ 53 * (around (-107)).above (coarseNum (-107)) (coarseDen (-107)) ∧
      3 * (digitLimit (-107) * coarseNum (-107)) ≤
        2 ^ 53 * (around (-107)).above (coarseNum (-107)) (coarseDen (-107)) ∧
      digitLimit (-107) ≤ (around (-107)).lowDen + (around (-107)).highDen ∧
      digitLimit (-107) ≤ 2 * (around (-107)).highDen ∧ (around (-107)).highDen = 7038531 := by
  decide +kernel

theorem coarseNum_pos (q : ℤ) : 0 < coarseNum q :=
  Nat.mul_pos (Nat.pow_pos (by decide)) (powerDenominator_pos (by decide) _)

theorem coarseDen_pos (q : ℤ) : 0 < coarseDen q :=
  Nat.mul_pos (Nat.pow_pos (by decide)) (powerDenominator_pos (by decide) _)

theorem encloses_around (q : ℤ) : (around q).Encloses (coarseNum q) (coarseDen q) :=
  (Neighbours.encloses_whole (coarseDen_pos q)).close 50

/-- Multiples of the power of ten are halves of the last bit, or not close to them, but for one. -/
theorem far_of_ne {q : ℤ} (hq : q ∈ Finset.Icc (-149 : ℤ) 104) {d m : ℤ} (hpos : 0 < d)
    (hlt : d < digitLimit q) (hexcept : q = -107 → d ≠ 7038531)
    (hne : d * coarseNum q - m * coarseDen q ≠ 0) :
    3 * (d * coarseNum q) < 2 ^ 53 * |d * coarseNum q - m * coarseDen q| := by
  have hnum : (0 : ℤ) < coarseNum q := by exact_mod_cast coarseNum_pos q
  by_cases hspecial : q = -107
  · subst hspecial
    obtain ⟨hlow, hfar, hlimit, hlimit', hden⟩ := around_exception
    have h := (encloses_around (-107)).gap_of_ne (m := m) hlow hfar hlimit hlimit' hpos hlt
      (by rw [hden]; exact hexcept rfl) (Nat.mul_pos (by decide) (coarseNum_pos _))
    exact_mod_cast h
  · rcases around_far q hq hspecial with hgcd | ⟨hlimit, hlow, hhigh⟩
    · have hdvd : (Nat.gcd (coarseNum q) (coarseDen q) : ℤ) ∣
          d * coarseNum q - m * coarseDen q := by
        refine dvd_sub (Dvd.dvd.mul_left ?_ _) (Dvd.dvd.mul_left ?_ _)
        · exact_mod_cast Nat.gcd_dvd_left _ _
        · exact_mod_cast Nat.gcd_dvd_right _ _
      have hle := Int.le_of_dvd (abs_pos.2 hne) ((dvd_abs _ _).2 hdvd)
      have hgcd' : (3 * (digitLimit q * coarseNum q) : ℤ) ≤
          2 ^ 53 * Nat.gcd (coarseNum q) (coarseDen q) := by exact_mod_cast hgcd
      nlinarith
    · have h := (encloses_around q).gap (m := m) hlow hhigh hpos (by omega)
      exact_mod_cast h

variable {x : BinaryFraction} {z z' : ℚ} {e : ℤ} {d : ℕ}

/-- A number is one of the bounds, or it is not close to them. -/
structure Clear (x : BinaryFraction) (z : ℚ) : Prop where
  /-- It is not close to the least number that rounds to the fraction. -/
  least : z = x.least ∨ 3 / 2 ^ 53 * z < z - x.least
  /-- It is not close to the greatest one. -/
  greatest : z = x.greatest ∨ 3 / 2 ^ 53 * z < x.greatest - z

/-- Between powers of two, the bounds are odd numbers of halves of the last bit. -/
theorem bounds_eq (hm : 0 < x.mantissa) (hwide : x.narrowBelow = false) :
    x.least = ((2 * x.mantissa - 1 : ℤ) : ℚ) * 2 ^ (x.exponent - 1) ∧
      x.greatest = ((2 * x.mantissa + 1 : ℤ) : ℚ) * 2 ^ (x.exponent - 1) := by
  rw [greatest_eq, least_eq hm, hwide, half_eq, value_eq, quarters]
  push_cast
  constructor <;> ring

/-- The power of ten as a fraction. -/
theorem coarse_eq (q : ℤ) :
    (10 : ℚ) ^ coarse q * coarseDen q = 2 ^ (q - 1) * coarseNum q := by
  rw [coarseDen, coarseNum]
  push_cast
  rw [powerNumerator_eq (by decide), powerNumerator_eq (by decide)]
  push_cast
  ring

/-- What is not close in whole numbers is not close as a decimal. -/
theorem far_iff (q : ℤ) (n m : ℤ) :
    (3 / 2 ^ 53 * (n * 10 ^ coarse q) < |(n * 10 ^ coarse q - m * 2 ^ (q - 1) : ℚ)| ↔
      3 * (n * coarseNum q) < 2 ^ 53 * |n * coarseNum q - m * coarseDen q|) ∧
    ((n * 10 ^ coarse q : ℚ) = m * 2 ^ (q - 1) ↔ n * coarseNum q - m * coarseDen q = 0) := by
  have hden : (0 : ℚ) < coarseDen q := by exact_mod_cast coarseDen_pos q
  have hhalf : (0 : ℚ) < 2 ^ (q - 1) := zpow_pos two_pos _
  have hpower : (10 : ℚ) ^ coarse q = 2 ^ (q - 1) * coarseNum q / coarseDen q :=
    eq_div_of_mul_eq hden.ne' (coarse_eq q)
  have hvalue : (n * 10 ^ coarse q : ℚ) = n * coarseNum q * (2 ^ (q - 1) / coarseDen q) := by
    rw [hpower]
    ring
  have hbound : (m * 2 ^ (q - 1) : ℚ) = m * coarseDen q * (2 ^ (q - 1) / coarseDen q) := by
    field_simp
  have hunit : (0 : ℚ) < 2 ^ (q - 1) / coarseDen q := div_pos hhalf hden
  rw [hvalue, hbound, ← sub_mul, abs_mul, abs_of_pos hunit, ← mul_assoc,
    mul_lt_mul_iff_left₀ hunit, mul_left_inj' hunit.ne']
  constructor
  · rw [← Int.cast_lt (R := ℚ)]
    push_cast
    constructor <;> intro h <;> linarith
  · rw [← Int.cast_inj (α := ℚ), ← sub_eq_zero]
    push_cast
    rfl

/-- The next lower power of ten is clearly less than the power of two. -/
theorem coarse_gap {q : ℤ} (hq : q ∈ Finset.Icc (-149 : ℤ) 104) :
    256 * (10 : ℚ) ^ (coarse q - 1) ≤ 255 * 2 ^ q := by
  have hbound := (coarse_bounds q hq).2
  have hten : (0 : ℚ) < powerDenominator 10 (coarse q - 1) := by
    exact_mod_cast powerDenominator_pos (by decide) _
  have htwo : (0 : ℚ) < powerDenominator 2 q := by
    exact_mod_cast powerDenominator_pos (by decide) _
  rw [← Nat.cast_le (α := ℚ)] at hbound
  push_cast at hbound
  rw [powerNumerator_eq (by decide), powerNumerator_eq (by decide)] at hbound
  push_cast at hbound
  refine le_of_mul_le_mul_right ?_ (mul_pos hten htwo)
  linarith

/-- A decimal that counts by at least the last bit is a multiple of the least such power of ten. -/
theorem exists_multiple {q : ℤ} (hq : q ∈ Finset.Icc (-149 : ℤ) 104) (hd : 0 < d)
    (hle : (2 : ℚ) ^ q ≤ 10 ^ e) : ∃ n : ℕ, 0 < n ∧ (d : ℚ) * 10 ^ e = n * 10 ^ coarse q := by
  have hcoarse : coarse q ≤ e := by
    -- The next lower power of ten is less than the last bit.
    by_contra hlt
    have hpow : (10 : ℚ) ^ e ≤ 10 ^ (coarse q - 1) :=
      zpow_le_zpow_right₀ (by norm_num) (by omega)
    have hpos : (0 : ℚ) < 10 ^ e := zpow_pos (by norm_num) e
    linarith [coarse_gap hq]
  obtain ⟨j, hj⟩ : ∃ j : ℕ, e - coarse q = j := ⟨(e - coarse q).toNat, by omega⟩
  refine ⟨d * 10 ^ j, by positivity, ?_⟩
  rw [show e = j + coarse q by omega, zpow_add₀ (by norm_num), zpow_natCast]
  push_cast
  ring

/-- A multiple that rounds to a fraction has few digits. -/
theorem IsSingle.lt_digitLimit (hx : x.IsSingle) {n : ℕ}
    (h : x.Attracts (n * 10 ^ coarse x.exponent)) : n < digitLimit x.exponent := by
  have hlt := h.le_greatest.trans_lt hx.greatest_lt
  have hden : (0 : ℚ) < coarseDen x.exponent := by exact_mod_cast coarseDen_pos _
  have hhalf : (2 : ℚ) ^ 26 * x.quarter = 2 ^ 25 * 2 ^ (x.exponent - 1) := by
    rw [half_eq]
    ring
  have hpos : (0 : ℚ) < 2 ^ (x.exponent - 1) := zpow_pos two_pos _
  rw [hhalf] at hlt
  have hscaled : (n : ℚ) * coarseNum x.exponent < 2 ^ 25 * coarseDen x.exponent := by
    refine lt_of_mul_lt_mul_left ?_ hpos.le
    calc (2 : ℚ) ^ (x.exponent - 1) * (n * coarseNum x.exponent) =
          n * 10 ^ coarse x.exponent * coarseDen x.exponent := by
          rw [mul_assoc (n : ℚ), coarse_eq]
          ring
      _ < 2 ^ 25 * 2 ^ (x.exponent - 1) * coarseDen x.exponent :=
          mul_lt_mul_of_pos_right hlt hden
      _ = 2 ^ (x.exponent - 1) * (2 ^ 25 * coarseDen x.exponent) := by ring
  have hdiv := (Nat.le_div_iff_mul_le (coarseNum_pos x.exponent)).2
    (by exact_mod_cast hscaled.le : n * coarseNum x.exponent ≤ 2 ^ 25 * coarseDen x.exponent)
  exact Nat.lt_succ_of_le hdiv

/-- The only fraction to which a decimal belongs that is too close to a bound. -/
def exception : BinaryFraction := ⟨11420669, -107, false⟩

/-- The decimal that is too close to a bound belongs to no other fraction. -/
theorem eq_exception (hm : 0 < x.mantissa) (hwide : x.narrowBelow = false)
    (hexp : x.exponent = -107) (h : x.Attracts ((7038531 : ℤ) * 10 ^ coarse x.exponent)) :
    x = exception := by
  obtain ⟨hleast, hgreatest⟩ := bounds_eq hm hwide
  have hlo := h.least_le
  have hhi := h.le_greatest
  rw [hexp, show coarse (-107) = -32 by decide] at hlo hhi
  rw [hleast, hexp] at hlo
  rw [hgreatest, hexp] at hhi
  have hpos : (0 : ℚ) < 2 ^ (-107 - 1 : ℤ) := zpow_pos two_pos _
  have hupper : ((7038531 : ℤ) : ℚ) * 10 ^ (-32 : ℤ) < (22841339 : ℤ) * 2 ^ (-107 - 1 : ℤ) := by
    norm_num
  have hlower : ((22841338 : ℤ) : ℚ) * 2 ^ (-107 - 1 : ℤ) < (7038531 : ℤ) * 10 ^ (-32 : ℤ) := by
    norm_num
  have hlt := lt_of_mul_lt_mul_right (hlo.trans_lt hupper) hpos.le
  have hgt := lt_of_mul_lt_mul_right (hlower.trans_le hhi) hpos.le
  rw [Int.cast_lt] at hlt hgt
  obtain ⟨m, q, narrow⟩ := x
  simp only at hlt hgt hexp hwide
  rw [exception, hexp, hwide, show m = 11420669 by omega]

/-- A multiple of a power of ten that is at least the last bit is not close to a bound. -/
theorem IsSingle.clear_of_le (hx : x.IsSingle) (hwide : x.narrowBelow = false)
    (hexcept : x ≠ exception) (hattracts : x.Attracts (d * 10 ^ e)) (hd : 0 < d)
    (hle : (2 : ℚ) ^ x.exponent ≤ 10 ^ e) : x.Clear (d * 10 ^ e) := by
  have hq : x.exponent ∈ Finset.Icc (-149 : ℤ) 104 :=
    Finset.mem_Icc.2 ⟨hx.exponent_ge, hx.exponent_le⟩
  obtain ⟨n, hn, hvalue⟩ := exists_multiple hq hd hle
  rw [hvalue] at hattracts ⊢
  have hspecial : x.exponent = -107 → (n : ℤ) ≠ 7038531 := fun hexp hdigits =>
    hexcept (eq_exception hx.mantissa_pos hwide hexp (by rwa [← hdigits]))
  -- Both bounds are multiples of half the last bit.
  have hfar : ∀ m : ℤ, (n : ℚ) * 10 ^ coarse x.exponent = m * 2 ^ (x.exponent - 1) ∨
      3 / 2 ^ 53 * (n * 10 ^ coarse x.exponent) <
        |(n * 10 ^ coarse x.exponent - m * 2 ^ (x.exponent - 1) : ℚ)| := by
    intro m
    have hiff := far_iff x.exponent n m
    rw [Int.cast_natCast] at hiff
    rw [hiff.1, hiff.2]
    by_cases hzero : (n : ℤ) * coarseNum x.exponent - m * coarseDen x.exponent = 0
    · exact .inl hzero
    · exact .inr (far_of_ne hq (by exact_mod_cast hn)
        (by exact_mod_cast hx.lt_digitLimit hattracts) hspecial hzero)
  obtain ⟨hleast, hgreatest⟩ := bounds_eq hx.mantissa_pos hwide
  have hlo := hattracts.least_le
  have hhi := hattracts.le_greatest
  constructor
  · rw [hleast] at hlo ⊢
    have h := hfar (2 * x.mantissa - 1)
    rwa [abs_of_nonneg (by linarith)] at h
  · rw [hgreatest] at hhi ⊢
    have h := hfar (2 * x.mantissa + 1)
    rwa [abs_sub_comm, abs_of_nonneg (by linarith)] at h

/-- A nearest multiple of a smaller power of ten is too close to the fraction for that. -/
theorem IsSingle.clear_of_lt (hx : x.IsSingle)
    (hwide : x.narrowBelow = false) (hattracts : x.Attracts (d * 10 ^ e))
    (hnearest : |d * 10 ^ e - x.value| ≤ 10 ^ e / 2) (hlt : (10 : ℚ) ^ e < 2 ^ x.exponent) :
    x.Clear (d * 10 ^ e) := by
  have hq : x.exponent ∈ Finset.Icc (-149 : ℤ) 104 :=
    Finset.mem_Icc.2 ⟨hx.exponent_ge, hx.exponent_le⟩
  have hcoarse : e ≤ coarse x.exponent - 1 := by
    have hpower := (coarse_bounds x.exponent hq).1
    rw [← power_le_power_iff (by decide) (by decide)] at hpower
    have hlt' : (10 : ℚ) ^ e < 10 ^ coarse x.exponent := hlt.trans_le (by exact_mod_cast hpower)
    have := (zpow_lt_zpow_iff_right₀ (by norm_num)).1 hlt'
    omega
  have hgap : 256 * (10 : ℚ) ^ e ≤ 255 * (4 * x.quarter) := by
    have hpow : (10 : ℚ) ^ e ≤ 10 ^ (coarse x.exponent - 1) :=
      zpow_le_zpow_right₀ (by norm_num) hcoarse
    have hlast := x.last_eq
    linarith [coarse_gap hq]
  have hupper := hattracts.le_greatest.trans_lt hx.greatest_lt
  have hquarter := x.quarter_pos
  obtain ⟨hlo, hhi⟩ := abs_le.1 hnearest
  refine ⟨.inr ?_, .inr ?_⟩
  · rw [least_eq hx.mantissa_pos, hwide]
    simp only [Bool.false_eq_true, ↓reduceIte]
    linarith
  · rw [greatest_eq]
    linarith

/-- Where the fractions are closer to each other below, there is one decimal for each power of two,
and none is close to a bound. -/
theorem narrow_far : ∀ q ∈ Finset.Icc (-148 : ℤ) 104,
    let x : BinaryFraction := ⟨2 ^ 23, q, true⟩
    let point := x.shortest.digits * x.tenScale x.shortest.exponent
    let low := x.lower * x.quarterScale x.shortest.exponent
    let high := x.upper * x.quarterScale x.shortest.exponent
    (point = low ∨ 3 * point < 2 ^ 53 * (point - low)) ∧
      (point = high ∨ 3 * point < 2 ^ 53 * (high - point)) := by
  decide +kernel

theorem IsSingle.clear_of_narrow (hx : x.IsSingle) (hnarrow : x.narrowBelow = true)
    (hshortest : x.shortest = ⟨d, e⟩) (hattracts : x.Attracts (d * 10 ^ e)) :
    x.Clear (d * 10 ^ e) := by
  obtain ⟨hmantissa, hexponent⟩ := hx.narrowBelow_iff.1 hnarrow
  obtain ⟨m, q, narrow⟩ := x
  simp only at hmantissa hexponent hnarrow
  subst hmantissa hnarrow
  obtain ⟨hleast, hgreatest⟩ :=
    narrow_far q (Finset.mem_Icc.2 ⟨by omega, hx.exponent_le⟩)
  generalize hy : (⟨2 ^ 23, q, true⟩ : BinaryFraction) = x at *
  rw [hshortest] at hleast hgreatest
  have hscale := x.scale_pos e
  have hpoint := x.multiple_scaled e d
  have hlow := x.least_scaled e
  have hhigh := x.greatest_scaled e
  have hle : x.lower * x.quarterScale e ≤ d * x.tenScale e := by
    rw [← Nat.cast_le (α := ℚ), hpoint, hlow]
    exact mul_le_mul_of_nonneg_right hattracts.least_le hscale.le
  have hge : d * x.tenScale e ≤ x.upper * x.quarterScale e := by
    rw [← Nat.cast_le (α := ℚ), hpoint, hhigh]
    exact mul_le_mul_of_nonneg_right hattracts.le_greatest hscale.le
  dsimp only at hleast hgreatest
  generalize d * x.tenScale e = point at *
  generalize x.lower * x.quarterScale e = low at *
  generalize x.upper * x.quarterScale e = high at *
  constructor
  · rcases hleast with rfl | hlt
    · exact .inl (mul_right_cancel₀ hscale.ne' (hpoint.symm.trans hlow))
    · refine .inr (lt_of_mul_lt_mul_right ?_ hscale.le)
      qify [hle] at hlt
      rw [hpoint, hlow] at hlt
      linarith
  · rcases hgreatest with rfl | hlt
    · exact .inl (mul_right_cancel₀ hscale.ne' (hpoint.symm.trans hhigh))
    · refine .inr (lt_of_mul_lt_mul_right ?_ hscale.le)
      qify [hge] at hlt
      rw [hpoint, hhigh] at hlt
      linarith

/-- The shortest decimal of a fraction is not close to a bound without being one, but for one
fraction. -/
theorem IsSingle.clear (hx : x.IsSingle) (hexcept : x ≠ exception)
    (hshortest : x.shortest = ⟨d, e⟩) (hnearest : x.nearest? e = some d)
    (hnext : x.quarter < 10 ^ (e + 1)) : x.Clear (d * 10 ^ e) := by
  obtain ⟨hattracts, hclose⟩ := nearest?_spec hx.mantissa_pos hnearest
  -- Powers of two are few enough to be checked; otherwise it matters how much the digits count.
  cases hnarrow : x.narrowBelow with
  | true => exact hx.clear_of_narrow hnarrow hshortest hattracts
  | false =>
    rcases le_or_gt ((2 : ℚ) ^ x.exponent) (10 ^ e) with hle | hlt
    · exact hx.clear_of_le hnarrow hexcept hattracts (hx.bounds hattracts hnext).1 hle
    · exact hx.clear_of_lt hnarrow hattracts (hclose hnarrow) hlt

/-- A decimal with few digits is a binary fraction with few bits only if its exponent is small. -/
theorem exponent_small {n : ℕ} {k : ℤ} (hd : 0 < d) (hd' : d < 2 ^ 30) (hn : 0 < n)
    (hn' : n < 2 ^ 30) (h : (d : ℚ) * 10 ^ e = n * 2 ^ k) : -22 ≤ e ∧ e ≤ 22 := by
  have hfive : ∀ m : ℕ, 0 < m → m < 2 ^ 30 → padicValNat 5 m ≤ 12 := fun m hpos hlt =>
    (padicValNat_le_nat_log m).trans
      (Nat.lt_succ_iff.1 (Nat.log_lt_of_lt_pow hpos.ne' (hlt.trans (by norm_num))))
  have hd0 : (d : ℚ) ≠ 0 := by exact_mod_cast hd.ne'
  have hn0 : (n : ℚ) ≠ 0 := by exact_mod_cast hn.ne'
  -- The exponent of five is the same on both sides.
  have hval := congrArg (padicValRat 5) h
  have : Fact (Nat.Prime 5) := ⟨by decide⟩
  have htwo : padicValRat 5 (2 : ℚ) = 0 := by
    rw [show (2 : ℚ) = (2 : ℕ) by norm_num, padicValRat.of_nat,
      padicValNat.eq_zero_of_not_dvd (by decide)]
    rfl
  have hten : padicValRat 5 (10 : ℚ) = 1 := by
    rw [show (10 : ℚ) = 2 * (5 : ℕ) by norm_num, padicValRat.mul two_ne_zero (by norm_num), htwo,
      padicValRat.self (by decide)]
    rfl
  rw [padicValRat.mul hd0 (zpow_ne_zero _ (by norm_num)),
    padicValRat.mul hn0 (zpow_ne_zero _ (by norm_num)), padicValRat.zpow, padicValRat.zpow,
    hten, htwo, padicValRat.of_nat, padicValRat.of_nat] at hval
  have hdle := hfive d hd hd'
  have hnle := hfive n hn hn'
  omega

/-- A number that is as close to the decimal as two roundings leave it rounds to the fraction too,
if it is the decimal itself where that can be represented. -/
theorem IsSingle.attracts_of_close (hx : x.IsSingle) (hclear : x.Clear (d * 10 ^ e))
    (hattracts : x.Attracts (d * 10 ^ e)) (hd : 0 < d) (hd' : d < 2 ^ 30) {u : ℚ}
    (hclose : |u - d * 10 ^ e| ≤ 3 / 2 ^ 53 * (d * 10 ^ e))
    (hexact : -22 ≤ e → e ≤ 22 → ∀ (n : ℕ) (k : ℤ), n < 2 ^ 53 → (d : ℚ) * 10 ^ e = n * 2 ^ k →
      u = d * 10 ^ e) : x.Attracts u := by
  have hsame : ∀ n : ℕ, 0 < n → n < 2 ^ 30 → (d : ℚ) * 10 ^ e = n * x.quarter →
      x.Attracts u := by
    intro n hn hn' heq
    obtain ⟨hlo, hhi⟩ := exponent_small hd hd' hn hn' heq
    rwa [hexact hlo hhi n _ (hn'.trans (by norm_num)) heq]
  have hupper : x.upper < 2 ^ 30 := by
    have := hx.mantissa_lt
    rw [upper, quarters]
    omega
  have hlower : 0 < x.lower ∧ x.lower < 2 ^ 30 := by
    have := hx.mantissa_lt
    have := hx.mantissa_pos
    rw [lower, quarters]
    split <;> omega
  obtain ⟨hlo, hhi⟩ := abs_le.1 hclose
  -- A bound has few bits, so a decimal that is one is exact.
  rcases hclear.least with heq | hleast
  · exact hsame x.lower hlower.1 hlower.2 heq
  · rcases hclear.greatest with heq | hgreatest
    · exact hsame x.upper (Nat.succ_pos _) hupper heq
    · exact attracts_of_lt (by linarith) (by linarith)

end BinaryFraction

end Phrasebook
