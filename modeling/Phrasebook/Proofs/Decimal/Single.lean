import Phrasebook.Proofs.Decimal.Scaling
import Phrasebook.Proofs.Decimal.Shortest

/-!
# Rounding to single precision

A number of double precision has more bits than single precision keeps, so what is left is the
nearest mantissa in the exponent of single precision. A number that rounds to a fraction of single
precision therefore becomes that fraction. Just below a power of two it lies in the binade below,
where the mantissa is rounded up to one bit more, and the bit is carried.

* `Floating.roundToSingle_eq`: the nearest mantissa is taken.
* `BinaryFraction.IsSingle.roundToSingle_eq`: what rounds to a fraction becomes it.
-/

namespace Phrasebook

open Float.Model Float.Model.UnpackedFloat Floating

namespace Floating

variable {s : Sign} {x : Float} {v : ℚ}

/-- A number of double precision is rounded to the nearest mantissa of single precision. -/
theorem roundToSingle_eq (h : Holds x s v) {q : ℤ} (hq : -149 ≤ q) (hv : v < 2 ^ (24 + q))
    (hnormal : q = -149 ∨ 2 ^ (23 + q) ≤ v) {n : ℕ} (hn : IsNearest (v / 2 ^ q) n) :
    roundToSingle x = .ofModel (.pack (carried .binary32 s n q)) := by
  obtain ⟨m, e, hpos, hunpack, hmlo, hmhi, -, -, rfl⟩ := h
  obtain ⟨hbelow, habove⟩ := binade_of_normal (e := e) hmlo hmhi
  have heq : 29 + e ≤ q := by
    have hlt := two_zpow_lt_iff.1 (hbelow.trans_lt hv)
    omega
  have htarget : Format.binary32.targetExponent (totalExponent m e) = q := by
    rw [Format.targetExponent, totalExponent, log2_of_normal hmlo hmhi]
    change max ((52 : ℕ) + 1 + e - (24 : ℕ)) (-149) = q
    -- The exponent is that of the binade, or else the least one.
    rcases hnormal with hmin | hle
    · omega
    · have hlt := two_zpow_lt_iff.1 (hle.trans_lt habove)
      omega
  obtain ⟨n', hnearest, hround⟩ :=
    @roundWithAccuracy_eq .binary32 s m e .exact m (tells_exact m) (by omega)
  have hquotient : (m : ℚ) / 2 ^ (q - e) = m * 2 ^ e / 2 ^ q := by
    rw [zpow_sub₀ two_ne_zero, div_div_eq_mul_div]
  rw [htarget, hquotient] at hnearest
  rw [htarget, hnearest.unique hn] at hround
  -- The number has more bits than are left, so none have to be added first.
  have hshift : (e - q).toNat = 0 := by omega
  rw [roundToSingle, hunpack]
  simp only [UnpackedFloat.round, htarget, decreaseExponent, hshift, Nat.shiftLeft_zero,
    Nat.cast_zero, sub_zero, hround]

end Floating

namespace BinaryFraction

variable {x : BinaryFraction} {s : Sign} {y : Float} {u : ℚ}

/-- How far away a number is that rounds to the fraction, on a side where the fractions are not
closer to each other. -/
theorem IsSingle.abs_sub_le (hx : x.IsSingle) (h : x.Attracts u)
    (hside : x.narrowBelow = true → x.value ≤ u) :
    |u - x.value| ≤ 2 * x.quarter ∧ (x.mantissa % 2 = 0 ∨ |u - x.value| < 2 * x.quarter) := by
  have hgreatest := h.le_greatest
  rw [greatest_eq] at hgreatest
  cases hnarrow : x.narrowBelow with
  | true =>
    have heven := (hx.narrowBelow_iff.1 hnarrow).1
    rw [abs_of_nonneg (by linarith [hside hnarrow])]
    exact ⟨by linarith, .inl (by rw [heven]; rfl)⟩
  | false =>
    rw [Attracts, least_eq hx.mantissa_pos, greatest_eq, hnarrow] at h
    simp only [Bool.false_eq_true, ↓reduceIte] at h
    split_ifs at h with heven
    · exact ⟨abs_le.2 ⟨by linarith, by linarith⟩, .inl heven⟩
    · have hlt : |u - x.value| < 2 * x.quarter := abs_lt.2 ⟨by linarith, by linarith⟩
      exact ⟨hlt.le, .inr hlt⟩

/-- What rounds to the fraction is nearest to its mantissa. -/
theorem IsSingle.isNearest (hx : x.IsSingle) (h : x.Attracts u)
    (hside : x.narrowBelow = true → x.value ≤ u) :
    IsNearest (u / 2 ^ x.exponent) x.mantissa := by
  have hpos : (0 : ℚ) < 2 ^ x.exponent := zpow_pos two_pos _
  have hdiff : u / 2 ^ x.exponent - x.mantissa = (u - x.value) / 2 ^ x.exponent := by
    rw [value, sub_div, mul_div_cancel_right₀ _ hpos.ne']
  have hhalf : 1 / 2 * (4 * x.quarter) = 2 * x.quarter := by ring
  obtain ⟨hle, hstrict⟩ := hx.abs_sub_le h hside
  rw [IsNearest, hdiff, abs_div, abs_of_pos hpos, div_lt_iff₀ hpos, div_eq_iff hpos.ne', last_eq,
    hhalf]
  rcases hle.lt_or_eq with hlt | heq
  · exact .inl hlt
  · exact .inr ⟨heq, hstrict.resolve_right (fun hlt => hlt.ne heq)⟩

/-- A mantissa of single precision is not halved. -/
theorem IsSingle.carried_eq (hx : x.IsSingle) :
    carried .binary32 s x.mantissa x.exponent =
      .finite s x.mantissa x.exponent hx.mantissa_pos := by
  rw [carried, dif_neg hx.mantissa_pos.ne', if_pos]
  exact hx.mantissa_lt

/-- The normal fractions' numbers have the bits of a normal number, where the fractions are not
closer to each other. -/
theorem IsSingle.binade (hx : x.IsSingle) (h : x.Attracts u)
    (hside : x.narrowBelow = true → x.value ≤ u) :
    u < 2 ^ (24 + x.exponent) ∧ (x.exponent = -149 ∨ 2 ^ (23 + x.exponent) ≤ u) := by
  have hquarter := x.quarter_pos
  have hgreatest := h.le_greatest
  have hleast := h.least_le
  rw [zpow_add₀ two_ne_zero, zpow_add₀ two_ne_zero, last_eq]
  rw [greatest_eq, value_eq, quarters] at hgreatest
  constructor
  · have hmax : (x.mantissa : ℚ) + 1 ≤ 2 ^ 24 := by exact_mod_cast hx.mantissa_lt
    have hscaled := mul_le_mul_of_nonneg_right hmax hquarter.le
    push_cast at hgreatest ⊢
    linarith
  · refine or_iff_not_imp_left.2 fun hexp => ?_
    have hnormal := hx.normal.resolve_left hexp
    cases hnarrow : x.narrowBelow with
    | true =>
      have hmin : (2 : ℚ) ^ 23 ≤ x.mantissa := by exact_mod_cast hnormal
      have hscaled := mul_le_mul_of_nonneg_right hmin hquarter.le
      have hle := hside hnarrow
      rw [value_eq, quarters] at hle
      push_cast at hle ⊢
      linarith
    | false =>
      -- The power of two itself is narrow, unless it is the least one.
      have hne : x.mantissa ≠ 2 ^ 23 := fun heq => by
        have hexp' := lt_of_le_of_ne hx.exponent_ge (Ne.symm hexp)
        have hnarrow' := hx.narrowBelow_iff.2 ⟨heq, hexp'⟩
        rw [hnarrow] at hnarrow'
        cases hnarrow'
      have hmin : (2 : ℚ) ^ 23 + 1 ≤ x.mantissa := by
        exact_mod_cast Nat.lt_of_le_of_ne hnormal hne.symm
      have hscaled := mul_le_mul_of_nonneg_right hmin hquarter.le
      rw [least_eq hx.mantissa_pos, hnarrow, value_eq, quarters] at hleast
      simp only [Bool.false_eq_true, ↓reduceIte] at hleast
      push_cast at hleast ⊢
      linarith

/-- Just below a power of two the mantissa has a bit more, which is carried. -/
theorem IsSingle.roundToSingle_of_lt (hx : x.IsSingle) (hy : Holds y s u) (h : x.Attracts u)
    (hnarrow : x.narrowBelow = true) (hlt : u < x.value) :
    roundToSingle y = .ofModel (.pack (.finite s x.mantissa x.exponent hx.mantissa_pos)) := by
  obtain ⟨hmantissa, hexponent⟩ := hx.narrowBelow_iff.1 hnarrow
  have hquarter := x.quarter_pos
  have hvalue : x.value = 2 ^ 24 * (2 * x.quarter) := by
    rw [value_eq, quarters, hmantissa]
    norm_num
    ring
  have hleast := h.least_le
  rw [least_eq hx.mantissa_pos, hnarrow, if_pos rfl, one_mul] at hleast
  have hhalf := x.half_eq
  have hnearest : IsNearest (u / 2 ^ (x.exponent - 1)) (2 ^ 24) := by
    have hpos : (0 : ℚ) < 2 * x.quarter := by linarith
    have hdiff : u / (2 * x.quarter) - (2 ^ 24 : ℕ) = (u - x.value) / (2 * x.quarter) := by
      rw [sub_div, hvalue, mul_div_cancel_right₀ _ hpos.ne']
      push_cast
      rfl
    rw [hhalf, IsNearest, hdiff, abs_div, abs_of_pos hpos, div_lt_iff₀ hpos, div_eq_iff hpos.ne',
      abs_of_neg (by linarith)]
    rcases (by linarith : -(u - x.value) ≤ 1 / 2 * (2 * x.quarter)).lt_or_eq with hlt | heq
    · exact .inl hlt
    · exact .inr ⟨heq, by decide⟩
  have hround := Floating.roundToSingle_eq hy (by omega : -149 ≤ x.exponent - 1)
    (by rw [zpow_add₀ two_ne_zero, hhalf]; norm_num at hvalue ⊢; linarith)
    (.inr (by rw [zpow_add₀ two_ne_zero, hhalf]; norm_num at hvalue ⊢; linarith)) hnearest
  -- In the binade below, the nearest mantissa has a bit too many.
  have hcarried : carried .binary32 s (2 ^ 24) (x.exponent - 1) =
      .finite s x.mantissa x.exponent hx.mantissa_pos := by
    have hbits : ¬ 2 ^ 24 < 2 ^ Format.binary32.mantissaBits := lt_irrefl _
    rw [carried, dif_neg (by decide), if_neg hbits]
    congr 1
    · exact hmantissa.symm
    · omega
  rw [hround, hcarried]

/-- A number of double precision that rounds to a fraction of single precision becomes that
fraction. -/
theorem IsSingle.roundToSingle_eq (hx : x.IsSingle) (hy : Holds y s u) (h : x.Attracts u) :
    roundToSingle y = .ofModel (.pack (.finite s x.mantissa x.exponent hx.mantissa_pos)) := by
  by_cases hside : x.narrowBelow = true → x.value ≤ u
  · obtain ⟨hupper, hnormal⟩ := hx.binade h hside
    rw [← hx.carried_eq]
    exact Floating.roundToSingle_eq hy hx.exponent_ge hupper hnormal (hx.isNearest h hside)
  · obtain ⟨hnarrow, hlt⟩ := Classical.not_imp.1 hside
    exact hx.roundToSingle_of_lt hy h hnarrow (not_le.1 hlt)

end BinaryFraction

end Phrasebook
