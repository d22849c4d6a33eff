import Mathlib.Tactic.FieldSimp
import Phrasebook.Proofs.Decimal.Rounding

/-!
# Numbers times powers of ten

Products and quotients of normal numbers are rounded once when they lie well inside the range, and
so are powers of ten, of which the small ones are exact. A natural number of few digits that is
scaled by a power of ten is therefore off by two roundings at most, and by one where the power of
ten is small.

* `Floating.Holds.mul`, `Floating.Holds.div`: products and quotients.
* `Floating.holds_ofNat`, `Floating.holds_powerOfTen`: what is multiplied.
* `Floating.exists_scale?`: a natural number scaled by a power of ten.
-/

namespace Phrasebook

namespace Floating

open Float.Model Float.Model.UnpackedFloat

variable {s t : Sign} {x y : Float} {v w : ℚ}

/-! ### Products and quotients -/

theorem log2_of_normal {m : ℕ} (hlo : 2 ^ 52 ≤ m) (hhi : m < 2 ^ 53) : m.log2 = 52 :=
  (Nat.log2_eq_iff (by omega)).2 ⟨hlo, hhi⟩

/-- How many bits the mantissas of two normal numbers have together. -/
theorem log2_mul_of_normal {m n : ℕ} (hmlo : 2 ^ 52 ≤ m) (hmhi : m < 2 ^ 53) (hnlo : 2 ^ 52 ≤ n)
    (hnhi : n < 2 ^ 53) : 104 ≤ (m * n).log2 ∧ (m * n).log2 ≤ 105 := by
  have hpos : m * n ≠ 0 := Nat.mul_ne_zero (by omega) (by omega)
  constructor
  · exact (Nat.le_log2 hpos).2 (by nlinarith)
  · exact Nat.lt_succ_iff.1 ((Nat.log2_lt hpos).2 (by nlinarith))

theorem log2_div_of_normal {m n : ℕ} (hmlo : 2 ^ 52 ≤ m) (hmhi : m < 2 ^ 53) (hnlo : 2 ^ 52 ≤ n)
    (hnhi : n < 2 ^ 53) : 52 ≤ (m * 2 ^ 53 / n).log2 ∧ (m * 2 ^ 53 / n).log2 ≤ 53 := by
  have hle : 2 ^ 52 ≤ m * 2 ^ 53 / n := by
    rw [Nat.le_div_iff_mul_le (by omega)]
    nlinarith
  have hlt : m * 2 ^ 53 / n < 2 ^ 54 := by
    rw [Nat.div_lt_iff_lt_mul (by omega)]
    nlinarith
  constructor
  · exact (Nat.le_log2 (by omega)).2 hle
  · exact Nat.lt_succ_iff.1 ((Nat.log2_lt (by omega)).2 hlt)

/-- A normal number lies in the binade of its exponent. -/
theorem binade_of_normal {m : ℕ} {e : ℤ} (hlo : 2 ^ 52 ≤ m) (hhi : m < 2 ^ 53) :
    (2 : ℚ) ^ (52 + e) ≤ m * 2 ^ e ∧ m * 2 ^ e < (2 : ℚ) ^ (53 + e) := by
  have h := (tells_exact m).binade (e := e) (by omega)
  rw [log2_of_normal hlo hhi] at h
  exact h

theorem log2_mul_two_pow {m : ℕ} (hpos : 0 < m) (k : ℕ) :
    (m * 2 ^ k).log2 = m.log2 + k := by
  induction k with
  | zero => rw [pow_zero, mul_one, add_zero]
  | succ k ih =>
    rw [pow_succ, ← mul_assoc, mul_comm, Nat.log2_two_mul (by positivity), ih, add_assoc]

/-- A product well inside the range is rounded. -/
theorem Holds.mul (hx : Holds x s v) (hy : Holds y t w) (hlo : (2 : ℚ) ^ (-250 : ℤ) ≤ v * w)
    (hhi : v * w ≤ 2 ^ (250 : ℤ)) : ∃ u, Holds (x * y) (s * t) u ∧ Rounded (v * w) u := by
  obtain ⟨m, e, hm, hxunpack, hmlo, hmhi, -, -, rfl⟩ := hx
  obtain ⟨n, f, hn, hyunpack, hnlo, hnhi, -, -, rfl⟩ := hy
  have hmul : x * y = .ofModel (.pack (roundWithAccuracy .binary64 (s * t) (m * n) (e + f)
      .exact)) := by
    change Float.ofModel (.pack (UnpackedFloat.mul _ x.toModel.unpack y.toModel.unpack)) = _
    rw [hxunpack, hyunpack]
    rfl
  have hvalue : (m * 2 ^ e * (n * 2 ^ f) : ℚ) = (m * n : ℕ) * 2 ^ (e + f) := by
    rw [zpow_add₀ two_ne_zero]
    push_cast
    ring
  rw [hvalue] at hlo hhi ⊢
  have hpos := Nat.mul_pos hm hn
  have hlog := log2_mul_of_normal hmlo hmhi hnlo hnhi
  -- The bounds of the value are bounds of the binade in which it lies.
  obtain ⟨hbelow, habove⟩ := (tells_exact (m * n)).binade (e := e + f) hpos
  have hlo' := two_zpow_lt_iff.1 (hlo.trans_lt habove)
  have hhi' := two_zpow_le_iff.1 (hbelow.trans hhi)
  rw [hmul]
  exact holds_roundWithAccuracy (tells_exact _) hpos (by omega) (by omega) (by omega)

/-- A quotient well inside the range is rounded. -/
theorem Holds.div (hx : Holds x s v) (hy : Holds y t w) (hlo : (2 : ℚ) ^ (-250 : ℤ) ≤ v / w)
    (hhi : v / w ≤ 2 ^ (250 : ℤ)) : ∃ u, Holds (x / y) (s / t) u ∧ Rounded (v / w) u := by
  obtain ⟨m, e, hm, hxunpack, hmlo, hmhi, -, -, rfl⟩ := hx
  obtain ⟨n, f, hn, hyunpack, hnlo, hnhi, -, -, rfl⟩ := hy
  -- The dividend is shifted by 53 bits, so that the quotient has enough of them.
  have hvalue : (m * 2 ^ e / (n * 2 ^ f) : ℚ) = (m * 2 ^ 53 : ℕ) / n * 2 ^ (e - f - 53) := by
    rw [zpow_sub₀ two_ne_zero, zpow_sub₀ two_ne_zero]
    push_cast
    field_simp
  rw [hvalue] at hlo hhi ⊢
  have hlog := log2_div_of_normal hmlo hmhi hnlo hnhi
  have hpos : 0 < m * 2 ^ 53 / n := by
    refine Nat.pos_of_ne_zero fun hzero => ?_
    rw [hzero] at hlog
    exact absurd hlog.1 (by decide)
  have htells := tells_quotient (m * 2 ^ 53) hn
  obtain ⟨hbelow, habove⟩ := htells.binade (e := e - f - 53) hpos
  have hlo' := two_zpow_lt_iff.1 (hlo.trans_lt habove)
  have hhi' := two_zpow_le_iff.1 (hbelow.trans hhi)
  have hdiv : x / y = .ofModel (.pack (roundWithAccuracy .binary64 (s / t) (m * 2 ^ 53 / n)
      (e - f - 53) (accuracyOfFraction (m * 2 ^ 53 % n) n))) := by
    have htarget : min (e - f) (Format.binary64.targetExponent
        (totalExponent m e - totalExponent n f)) = e - f - 53 := by
      rw [Format.targetExponent, totalExponent, totalExponent, log2_of_normal hmlo hmhi,
        log2_of_normal hnlo hnhi]
      change min (e - f) (max ((52 : ℕ) + 1 + e - ((52 : ℕ) + 1 + f) - (53 : ℕ)) (-1074)) = _
      omega
    have hshift : (e - f - (e - f - 53)).toNat = 53 := by omega
    change Float.ofModel (.pack (UnpackedFloat.div _ x.toModel.unpack y.toModel.unpack)) = _
    rw [hxunpack, hyunpack]
    simp only [UnpackedFloat.div, divCore, htarget, hshift, Nat.shiftLeft_eq]
  rw [hdiv]
  exact holds_roundWithAccuracy htells hpos (by omega) (by omega) (by omega)

/-! ### Natural numbers -/

theorem Rounded.eq_natCast {n : ℕ} {u : ℚ} (h : Rounded n u) (hn : n < 2 ^ 53) : u = n :=
  h.exact n 0 hn (by rw [zpow_zero, mul_one])

theorem holds_one : Holds (.ofBits 0x3FF0000000000000) .positive 1 :=
  ⟨2 ^ 52, -52, by decide, rfl, by decide, by decide, by decide, by decide, by norm_num⟩

/-- A natural number with few enough bits is a number of double precision. -/
theorem holds_ofUInt64 {n : UInt64} (hpos : 0 < n.toNat) (hn : n.toNat < 2 ^ 53) :
    Holds n.toFloat .positive n.toNat := by
  generalize hm : n.toNat = m at hpos hn
  have hlog : m.log2 < 53 := (Nat.log2_lt hpos.ne').2 hn
  have htarget : Format.binary64.targetExponent (totalExponent m 0) = m.log2 - 52 := by
    rw [Format.targetExponent, totalExponent]
    change max ((m.log2 : ℤ) + 1 + 0 - (53 : ℕ)) (-1074) = _
    omega
  -- Zeros are appended until there are as many bits as a normal number has.
  obtain ⟨k, hk⟩ : ∃ k : ℕ, 52 - m.log2 = k := ⟨_, rfl⟩
  have hround : n.toFloat = .ofModel (.pack (roundWithAccuracy .binary64 .positive (m * 2 ^ k)
      (-k) .exact)) := by
    change Float.ofModel (.pack (UnpackedFloat.normalize _ (n.toNat : ℤ) 0 .positive)) = _
    have hcompare : compare (m : ℤ) 0 = .gt := compare_gt_iff_gt.2 (by omega)
    have hshift : (-((m.log2 : ℤ) - 52)).toNat = k := by omega
    rw [hm, UnpackedFloat.normalize, hcompare]
    simp only [UnpackedFloat.round, Int.toNat_natCast, htarget, decreaseExponent, zero_sub,
      hshift, Nat.shiftLeft_eq]
  have hvalue : ((m * 2 ^ k : ℕ) : ℚ) * 2 ^ (-k : ℤ) = m := by
    push_cast
    rw [zpow_neg, zpow_natCast, mul_inv_cancel_right₀ (by positivity)]
  have hlog' : (m * 2 ^ k).log2 = 52 := by
    rw [log2_mul_two_pow hpos]
    omega
  obtain ⟨u, hu, hrounded⟩ := holds_roundWithAccuracy (s := .positive) (e := -k)
    (tells_exact (m * 2 ^ k)) (by positivity) (by omega) (by omega) (by omega)
  rw [hvalue] at hrounded
  rwa [hround, ← hrounded.eq_natCast hn]

theorem natCast_mem_range {n : ℕ} (hpos : 0 < n) (hn : n < 2 ^ 200) :
    (2 : ℚ) ^ (-250 : ℤ) ≤ n ∧ (n : ℚ) ≤ 2 ^ (250 : ℤ) := by
  constructor
  · refine (zpow_le_one_of_nonpos₀ one_le_two (by decide)).trans ?_
    exact_mod_cast hpos
  · have hle : (n : ℚ) ≤ 2 ^ (200 : ℤ) := by exact_mod_cast hn.le
    exact hle.trans (two_zpow_le_iff.2 (by decide))

theorem holds_ofNat {n : ℕ} (hpos : 0 < n) (hn : n < 2 ^ 53) :
    Holds (Float.ofNat n) .positive n := by
  have htoNat : n.toUInt64.toNat = n := by
    rw [Nat.toUInt64_eq, UInt64.toNat_ofNat']
    omega
  -- The conversion also multiplies by the power of ten whose exponent is zero.
  have heq : Float.ofNat n = n.toUInt64.toFloat * .ofBits 0x3FF0000000000000 := by
    change Float.ofScientific n false 0 = _
    rw [Float.ofScientific, dif_pos ⟨hn, by decide⟩]
    rfl
  have hword := holds_ofUInt64 (n := n.toUInt64) (by omega) (by omega)
  rw [htoNat] at hword
  obtain ⟨hlo, hhi⟩ := natCast_mem_range hpos (hn.trans (by decide))
  obtain ⟨u, hu, hrounded⟩ := hword.mul holds_one (by rwa [mul_one]) (by rwa [mul_one])
  rw [mul_one] at hrounded
  rw [heq, ← hrounded.eq_natCast hn]
  exact hu

/-! ### Powers of ten -/

/-- Whether an unpacked number is normal and is this natural number. -/
def isExact (n : ℕ) : UnpackedFloat → Bool
  | .finite .positive m e _ =>
    2 ^ 52 ≤ m ∧ m < 2 ^ 53 ∧ -1074 ≤ e ∧ e ≤ 971 ∧ m * 2 ^ e.toNat = n * 2 ^ (-e).toNat
  | _ => false

theorem holds_of_isExact {n : ℕ} (h : isExact n x.toModel.unpack = true) :
    Holds x .positive n := by
  cases hunpack : x.toModel.unpack with
  | finite sign m e hpos =>
    rw [hunpack] at h
    cases sign with
    | negative => cases h
    | positive =>
      obtain ⟨hlo, hhi, helo, hehi, hvalue⟩ := of_decide_eq_true h
      refine ⟨m, e, hpos, hunpack, hlo, hhi, helo, hehi, ?_⟩
      have hcast : (m * 2 ^ e.toNat : ℚ) = n * 2 ^ (-e).toNat := by exact_mod_cast hvalue
      rcases Int.le_total 0 e with he | he
      · obtain ⟨k, rfl⟩ := Int.eq_ofNat_of_zero_le he
        simpa using hcast.symm
      · obtain ⟨k, rfl⟩ := Int.exists_eq_neg_ofNat he
        have hk : (-(k : ℤ)).toNat = 0 := by omega
        rw [neg_neg, Int.toNat_natCast, hk, pow_zero, mul_one] at hcast
        rw [zpow_neg, zpow_natCast, hcast, mul_inv_cancel_right₀ (by positivity)]
  | _ => rw [hunpack] at h; cases h

/-- The small powers of ten are in a table, in which they are exact. -/
theorem isExact_power : ∀ k : Fin 23,
    isExact (10 ^ k.val) Float.exactlyRepresentablePowersOfTen[k].toModel.unpack = true := by
  decide +kernel

/-- A small power of ten is exact. -/
theorem holds_powerOfTen_of_le {k : ℕ} (hk : k ≤ 22) :
    Holds (Numeral.powerOfTen k) .positive (10 ^ k : ℕ) := by
  have heq : Numeral.powerOfTen k = (Nat.toUInt64 1).toFloat *
      Float.exactlyRepresentablePowersOfTen[(⟨k, by omega⟩ : Fin 23)] := by
    rw [Numeral.powerOfTen, Float.ofScientific, dif_pos ⟨by decide, hk⟩]
    rfl
  have hone := holds_ofUInt64 (n := Nat.toUInt64 1) (by decide) (by decide)
  rw [show (Nat.toUInt64 1).toNat = 1 from rfl, Nat.cast_one] at hone
  have htable := holds_of_isExact (isExact_power ⟨k, by omega⟩)
  have hlt : 10 ^ k < 2 ^ 200 := (Nat.pow_le_pow_right (by decide) hk).trans_lt (by decide)
  obtain ⟨hlo, hhi⟩ := natCast_mem_range (Nat.pow_pos (by decide) : 0 < 10 ^ k) hlt
  obtain ⟨p, hp, hrounded⟩ := hone.mul htable (by rwa [one_mul]) (by rwa [one_mul])
  rw [one_mul] at hrounded
  have hvalue : ((10 ^ k : ℕ) : ℚ) = (5 ^ k : ℕ) * 2 ^ (k : ℤ) := by
    rw [zpow_natCast]
    exact_mod_cast (Nat.mul_pow 5 2 k)
  have hfive : 5 ^ k < 2 ^ 53 := (Nat.pow_le_pow_right (by decide) hk).trans_lt (by decide)
  rw [heq, ← hrounded.exact _ _ hfive hvalue]
  exact hp

/-- The powers of ten in the range, bounded in steps that stay small. -/
theorem ten_pow_lt {k : ℕ} (hk : k ≤ 307) : 10 ^ k < 2 ^ (196 * 5 + 40) := by
  have hle : ∀ j, k ≤ j * 5 + 12 → 10 ^ k ≤ (10 ^ j) ^ 5 * 10 ^ 12 := fun j hj => by
    rw [← pow_mul, ← pow_add]
    exact Nat.pow_le_pow_right (by decide) hj
  calc 10 ^ k ≤ (10 ^ 59) ^ 5 * 10 ^ 12 := hle 59 hk
    _ < (2 ^ 196) ^ 5 * 2 ^ 40 :=
      Nat.mul_lt_mul'' (Nat.pow_lt_pow_left (by decide) (by decide)) (by decide)
    _ = 2 ^ (196 * 5 + 40) := by rw [← pow_mul, ← pow_add]

/-- A power of ten in the range is rounded. -/
theorem holds_powerOfTen {k : ℕ} (hk : k ≤ 307) :
    ∃ p, Holds (Numeral.powerOfTen k) .positive p ∧ Rounded (10 ^ k) p := by
  by_cases hsmall : k ≤ 22
  · refine ⟨_, holds_powerOfTen_of_le hsmall, ?_, fun _ _ _ _ => ?_⟩
    · push_cast
      rw [sub_self, abs_zero]
      positivity
    · push_cast
      rfl
  · -- The other powers are computed exactly, with 53 bits more, and are rounded once.
    have hpos : 0 < 2 ^ 53 * 10 ^ k := by positivity
    have heq : Numeral.powerOfTen k = .ofModel (.pack (roundWithAccuracy .binary64 .positive
        (2 ^ 53 * 10 ^ k) (-53) .exact)) := by
      rw [Numeral.powerOfTen, Float.ofScientific, dif_neg (by omega)]
      change Float.ofModel (.pack (UnpackedFloat.ofScientific _ 1 (k : ℤ))) = _
      rw [UnpackedFloat.ofScientific, dif_neg (by decide), if_neg, if_neg, if_pos (by omega)]
      · rfl
      · change ¬ (k : ℤ) < -((2 ^ 11 : ℤ) + _)
        omega
      · change ¬ (k : ℤ) > 2 ^ 11
        omega
    have hlog : 53 + 3 * k ≤ (2 ^ 53 * 10 ^ k).log2 := by
      rw [Nat.le_log2 hpos.ne', pow_add, pow_mul]
      exact Nat.mul_le_mul_left _ (Nat.pow_le_pow_left (by decide) k)
    have hlog' : ∀ j, 10 ^ k < 2 ^ j → (2 ^ 53 * 10 ^ k).log2 < 53 + j := fun j hlt => by
      rw [Nat.log2_lt hpos.ne', pow_add]
      exact Nat.mul_lt_mul_of_pos_left hlt (by positivity)
    have hlog'' := hlog' _ (ten_pow_lt hk)
    obtain ⟨p, hp, hrounded⟩ := holds_roundWithAccuracy (s := .positive) (e := -53)
      (tells_exact (2 ^ 53 * 10 ^ k)) hpos (by omega) (by omega) (by omega)
    have hvalue : ((2 ^ 53 * 10 ^ k : ℕ) : ℚ) * 2 ^ (-53 : ℤ) = 10 ^ k := by
      rw [zpow_neg]
      push_cast
      field_simp
    rw [hvalue] at hrounded
    exact ⟨p, heq ▸ hp, hrounded⟩

/-! ### Scaling by a power of ten -/

/-- The error of a product with a factor that was rounded. -/
theorem close_mul {n p d u : ℚ} (hn : 0 < n) (hd : 0 < d) (hp : |p - d| ≤ d / 2 ^ 53)
    (hu : |u - n * p| ≤ n * p / 2 ^ 53) : |u - n * d| ≤ 3 / 2 ^ 53 * (n * d) := by
  have hfactor : |n * p - n * d| ≤ n * d / 2 ^ 53 := by
    rw [← mul_sub, abs_mul, abs_of_pos hn, mul_div_assoc]
    exact mul_le_mul_of_nonneg_left hp hn.le
  have htriangle := abs_sub_le u (n * p) (n * d)
  have hnd := mul_pos hn hd
  have hupper := (abs_le.1 hfactor).2
  linarith

/-- The error of a quotient by a divisor that was rounded. -/
theorem close_div {n p d u : ℚ} (hn : 0 < n) (hd : 0 < d) (hp : |p - d| ≤ d / 2 ^ 53)
    (hu : |u - n / p| ≤ n / p / 2 ^ 53) : |u - n / d| ≤ 3 / 2 ^ 53 * (n / d) := by
  obtain ⟨hlo, hhi⟩ := abs_le.1 hp
  have hppos : 0 < p := by linarith
  -- How far the divisor is away decides how far the quotient is.
  have hratio : |n / p - n / d| ≤ n / p / 2 ^ 53 := by
    have heq : n / p - n / d = -(n / p * ((p - d) / d)) := by
      field_simp
      ring
    have hle : |(p - d) / d| ≤ 1 / 2 ^ 53 := by
      rw [abs_div, abs_of_pos hd, div_le_iff₀ hd]
      linarith
    rw [heq, abs_neg, abs_mul, abs_of_pos (div_pos hn hppos), div_eq_mul_one_div (n / p)]
    exact mul_le_mul_of_nonneg_left hle (div_pos hn hppos).le
  have htriangle := abs_sub_le u (n / p) (n / d)
  have hnd := div_pos hn hd
  have hupper := (abs_le.1 hratio).2
  linarith

theorem isInf_eq_false (h : Holds x s v) : x.isInf = false := by
  obtain ⟨m, e, hpos, hunpack, -⟩ := h
  change x.toModel.unpack.isInf = false
  rw [hunpack]
  rfl

/-- A power of ten that was rounded is not far outside the powers of two around it. -/
theorem power_mem_range {k : ℕ} {p : ℚ} (hp : |p - 10 ^ k| ≤ 10 ^ k / 2 ^ 53) :
    1 / 2 ≤ p ∧ p ≤ 2 * (2 ^ 4) ^ k := by
  obtain ⟨hlo, hhi⟩ := abs_le.1 hp
  have hone : (1 : ℚ) ≤ 10 ^ k := one_le_pow₀ (by norm_num)
  have hsixteen : (10 : ℚ) ^ k ≤ (2 ^ 4) ^ k := pow_le_pow_left₀ (by norm_num) (by norm_num) k
  constructor <;> linarith

/-- A quotient by a power of ten is well inside the range. -/
theorem div_mem_range {n k : ℕ} (hpos : 0 < n) (hn : n < 2 ^ 53) (hk : k ≤ 60) {p : ℚ}
    (hp : |p - 10 ^ k| ≤ 10 ^ k / 2 ^ 53) :
    (2 : ℚ) ^ (-250 : ℤ) ≤ n / p ∧ n / p ≤ 2 ^ (250 : ℤ) := by
  obtain ⟨hlo, hhi⟩ := power_mem_range hp
  have hppos : 0 < p := by linarith
  have hn1 : (1 : ℚ) ≤ n := by exact_mod_cast hpos
  have hn2 : (n : ℚ) ≤ 2 ^ 53 := by exact_mod_cast hn.le
  have hp2 : p ≤ 2 ^ 241 := by
    refine hhi.trans ?_
    rw [← pow_mul, ← pow_succ']
    exact pow_le_pow_right₀ one_le_two (by omega)
  constructor
  · rw [le_div_iff₀ hppos]
    calc (2 : ℚ) ^ (-250 : ℤ) * p ≤ 2 ^ (-250 : ℤ) * 2 ^ 241 :=
          mul_le_mul_of_nonneg_left hp2 (two_zpow_pos _).le
      _ = 2 ^ (-9 : ℤ) := by rw [← zpow_natCast, ← zpow_add₀ two_ne_zero]; rfl
      _ ≤ 1 := zpow_le_one_of_nonpos₀ one_le_two (by decide)
      _ ≤ n := hn1
  · rw [div_le_iff₀ hppos]
    calc (n : ℚ) ≤ 2 ^ 53 := hn2
      _ ≤ 2 ^ (250 : ℤ) * (1 / 2) := by norm_num
      _ ≤ 2 ^ (250 : ℤ) * p := mul_le_mul_of_nonneg_left hlo (two_zpow_pos _).le

/-- A product with a power of ten is well inside the range. -/
theorem mul_mem_range {n k : ℕ} (hpos : 0 < n) (hn : n < 2 ^ 53) (hk : k ≤ 40) {p : ℚ}
    (hp : |p - 10 ^ k| ≤ 10 ^ k / 2 ^ 53) :
    (2 : ℚ) ^ (-250 : ℤ) ≤ n * p ∧ n * p ≤ 2 ^ (250 : ℤ) := by
  obtain ⟨hlo, hhi⟩ := power_mem_range hp
  have hn1 : (1 : ℚ) ≤ n := by exact_mod_cast hpos
  have hn2 : (n : ℚ) ≤ 2 ^ 53 := by exact_mod_cast hn.le
  have hp2 : p ≤ 2 ^ 161 := by
    refine hhi.trans ?_
    rw [← pow_mul, ← pow_succ']
    exact pow_le_pow_right₀ one_le_two (by omega)
  constructor
  · calc (2 : ℚ) ^ (-250 : ℤ) ≤ 2 ^ (-1 : ℤ) := two_zpow_le_iff.2 (by decide)
      _ = 1 * (1 / 2) := by norm_num
      _ ≤ n * p := mul_le_mul hn1 hlo (by norm_num) (by linarith)
  · calc (n : ℚ) * p ≤ 2 ^ 53 * 2 ^ 161 := mul_le_mul hn2 hp2 (by linarith) (by positivity)
      _ = 2 ^ (214 : ℤ) := by rw [← pow_add]; rfl
      _ ≤ 2 ^ (250 : ℤ) := two_zpow_le_iff.2 (by decide)

/-- Scaling gives a number that is close, and the nearest one for small powers of ten. -/
theorem exists_scale? {n : ℕ} {e : ℤ} (hpos : 0 < n) (hn : n < 2 ^ 53) (hlo : -60 ≤ e)
    (hhi : e ≤ 40) :
    ∃ y u, Numeral.scale? (Float.ofNat n) e = some y ∧ Holds y .positive u ∧
      |u - n * 10 ^ e| ≤ 3 / 2 ^ 53 * (n * 10 ^ e) ∧
      (-22 ≤ e → e ≤ 22 → Rounded (n * 10 ^ e) u) := by
  have hx := holds_ofNat hpos hn
  have hn0 : (0 : ℚ) < n := by exact_mod_cast hpos
  have hten : ∀ k : ℕ, (0 : ℚ) < 10 ^ k := fun k => by positivity
  obtain ⟨k, hk⟩ : ∃ k, e.natAbs = k := ⟨_, rfl⟩
  obtain ⟨p, hp, hrounded⟩ := holds_powerOfTen (k := k) (by omega)
  -- A small power of ten is not rounded.
  have hexact : k ≤ 22 → p = 10 ^ k := fun hsmall => by
    refine hrounded.exact (5 ^ k) k ?_ ?_
    · exact (Nat.pow_le_pow_right (by decide) hsmall).trans_lt (by decide)
    · rw [zpow_natCast]
      push_cast
      rw [← mul_pow]
      norm_num
  rw [Numeral.scale?, hk]
  by_cases he : e < 0
  · have hvalue : (n : ℚ) * 10 ^ e = n / 10 ^ k := by
      rw [show e = -(k : ℤ) by omega, zpow_neg, zpow_natCast, div_eq_mul_inv]
    obtain ⟨hmin, hmax⟩ := div_mem_range hpos hn (by omega) hrounded.close
    obtain ⟨u, hu, hquotient⟩ := hx.div hp hmin hmax
    rw [if_pos he, Numeral.scaleDown, if_pos (by omega), hvalue]
    refine ⟨_, u, rfl, hu, close_div hn0 (hten k) hrounded.close hquotient.close, ?_⟩
    intro hsmall _
    rwa [hexact (by omega)] at hquotient
  · have hvalue : (n : ℚ) * 10 ^ e = n * 10 ^ k := by
      rw [show e = (k : ℤ) by omega, zpow_natCast]
    obtain ⟨hmin, hmax⟩ := mul_mem_range hpos hn (by omega) hrounded.close
    obtain ⟨u, hu, hproduct⟩ := hx.mul hp hmin hmax
    have hfinite := isInf_eq_false hu
    rw [if_neg he, if_pos (by omega), hvalue]
    simp only [hfinite, Bool.false_eq_true, ↓reduceIte]
    refine ⟨_, u, rfl, hu, close_mul hn0 (hten k) hrounded.close hproduct.close, ?_⟩
    intro _ hsmall
    rwa [hexact (by omega)] at hproduct

end Floating

end Phrasebook
