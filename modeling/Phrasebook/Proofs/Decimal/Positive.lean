import Phrasebook.Proofs.Decimal.Reading

/-!
# Counts in single precision

A count that is not zero is a positive number in single precision, or infinity when it is too
large. A product with such a number is one too when the other factor is not too small, so nothing
is lost by rounding. Zero divided by it is zero.

* `Floating.IsPositive`: a positive number or infinity that can be packed.
* `Floating.isPositive_unpack_pack`, `Floating.isPositive_roundWithAccuracy`: what packing and
  rounding keep.
* `Floating.isPositive_ofNat`: counts.
* `Floating.zero_div`: zero divided by a positive number.
-/

namespace Phrasebook

open Float.Model Float.Model.UnpackedFloat

namespace Floating

variable {F : Format} {s : Sign} {u v : UnpackedFloat} {m n : ℕ} {e f : ℤ}

/-- A positive number whose mantissa and exponent have room in the format, or infinity. -/
def IsPositive (F : Format) : UnpackedFloat → Prop
  | .infinity s => s = .positive
  | .finite s m e _ => s = .positive ∧ m < 2 ^ F.mantissaBits ∧ F.minExponent ≤ e
  | _ => False

/-! ### Packing -/

theorem minExponent_eq (F : Format) :
    F.minExponent = 1 - (F.exponentBias + F.mantissaBitsWithoutImplicit : ℤ) := by
  have hpow : 1 ≤ 2 ^ (F.exponentBits - 1) := Nat.one_le_two_pow
  rw [Format.minExponent, Format.exponentBias, mantissaBits_eq]
  push_cast [hpow]
  ring

/-- Bits that are neither zero nor those of what is not a number are those of a positive number. -/
theorem isPositive_unpack_packComponents {exponent : BitVec F.exponentBits}
    {mantissa : BitVec F.mantissaBitsWithoutImplicit}
    (hones : exponent = -1#_ → mantissa = 0#_) (hzero : exponent = 0#_ → mantissa ≠ 0#_) :
    IsPositive F (UnpackedFloat.unpack F (packComponents F .positive exponent mantissa)) := by
  have hmantissa := mantissa.isLt
  have hbits : 2 ^ F.mantissaBits = 2 * 2 ^ F.mantissaBitsWithoutImplicit := by
    rw [mantissaBits_eq, Nat.pow_succ, Nat.mul_comm]
  have hmin := minExponent_eq F
  rw [UnpackedFloat.unpack]
  simp only [unpackMantissa_packComponents, unpackExponent_packComponents,
    unpackSign_packComponents, Sign.ofBitVec_toBitVec]
  split_ifs with hone hnone hsmall hnothing
  · rfl
  · exact absurd (hones hone) hnone
  · exact absurd hnothing (hzero hsmall)
  · -- A subnormal number has the least exponent.
    refine ⟨rfl, by omega, ?_⟩
    rw [hsmall, BitVec.toNat_zero]
    omega
  · have hpos : exponent.toNat ≠ 0 := fun h => hsmall (BitVec.eq_of_toNat_eq h)
    refine ⟨rfl, ?_, by omega⟩
    rw [toNat_one_append]
    omega

/-- A positive number stays one when it is packed. -/
theorem isPositive_unpack_pack (h : IsPositive F u) :
    IsPositive F (UnpackedFloat.unpack F (UnpackedFloat.pack F u)) := by
  have hones : (-1#F.exponentBits).toNat = 2 ^ F.exponentBits - 1 := by
    rw [BitVec.neg_one_eq_allOnes, BitVec.toNat_allOnes]
  have hpow : 2 ≤ 2 ^ F.exponentBits := Nat.le_self_pow F.he.ne' 2
  have hmin := minExponent_eq F
  have hne : (0#F.exponentBits) ≠ -1#_ := fun heq => by
    have heq := congrArg BitVec.toNat heq
    rw [hones, BitVec.toNat_zero] at heq
    omega
  cases u with
  | notANumber => exact h.elim
  | zero s => exact h.elim
  | infinity s =>
    obtain rfl : s = .positive := h
    exact isPositive_unpack_packComponents (fun _ => rfl) fun heq => absurd heq.symm hne
  | finite s m e hpos =>
    obtain ⟨rfl, hm, he⟩ := h
    rw [UnpackedFloat.pack]
    split_ifs with hlarge hnormal
    · exact isPositive_unpack_packComponents (fun _ => rfl) fun heq => absurd heq.symm hne
    · -- The exponent of a normal number is neither the first nor the last one.
      have hbiased : (BitVec.ofNat F.exponentBits
          (e + F.exponentBias + F.mantissaBitsWithoutImplicit).toNat).toNat =
            (e + F.exponentBias + F.mantissaBitsWithoutImplicit).toNat := by
        rw [BitVec.toNat_ofNat, Nat.mod_eq_of_lt (by omega)]
      refine isPositive_unpack_packComponents (fun heq => ?_) fun heq => ?_
      · rw [heq, hones] at hbiased
        omega
      · rw [heq, BitVec.toNat_zero] at hbiased
        omega
    · refine isPositive_unpack_packComponents (fun heq => absurd heq hne) fun _ heq => ?_
      have hlt : m < 2 ^ F.mantissaBitsWithoutImplicit := by
        have hlog : m.log2 < F.mantissaBits := (Nat.log2_lt hpos.ne').2 hm
        rw [mantissaBits_eq] at hlog hnormal
        exact (Nat.log2_lt hpos.ne').1 (by omega)
      have hmantissa := congrArg BitVec.toNat heq
      rw [BitVec.toNat_ofNat, Nat.mod_eq_of_lt hlt, BitVec.toNat_zero] at hmantissa
      omega

/-! ### Rounding -/

theorem isPositive_carried (hpos : 0 < m) (he : F.minExponent ≤ e) :
    IsPositive F (carried F .positive m e) := by
  rw [carried, dif_neg hpos.ne']
  split_ifs with hlt
  · exact ⟨rfl, hlt, he⟩
  · refine ⟨rfl, ?_, by omega⟩
    rw [mantissaBits_eq]
    exact Nat.pow_lt_pow_right Nat.one_lt_two (Nat.lt_succ_self _)

/-- A positive number that is not below the least one of the format stays positive when it is
rounded. -/
theorem isPositive_roundWithAccuracy (hpos : 0 < m) (hleast : F.minExponent ≤ m.log2 + e)
    (he : e ≤ F.targetExponent (totalExponent m e)) :
    IsPositive F (roundWithAccuracy F .positive m e .exact) := by
  obtain ⟨n, hnearest, hround⟩ := roundWithAccuracy_eq (s := .positive) (tells_exact m) he
  rw [hround]
  refine isPositive_carried ?_ (le_max_right _ _)
  -- No more bits are dropped than the mantissa has.
  have hshift : F.targetExponent (totalExponent m e) - e ≤ m.log2 := by
    rw [Format.targetExponent, totalExponent, mantissaBits_eq]
    omega
  refine hnearest.ge ?_
  rw [Nat.cast_one, one_le_div (two_zpow_pos _)]
  calc (2 : ℚ) ^ (F.targetExponent (totalExponent m e) - e)
      ≤ 2 ^ (m.log2 : ℤ) := two_zpow_le_iff.2 hshift
    _ ≤ m := by exact_mod_cast Nat.log2_self_le hpos.ne'

theorem isPositive_round (hpos : 0 < m) (hleast : F.minExponent ≤ m.log2 + e) :
    IsPositive F (UnpackedFloat.round F .positive m e) := by
  set t := F.targetExponent (totalExponent m e) with ht
  have hlog := log2_mul_two_pow hpos (e - t).toNat
  -- What is shifted has the same leading digit, so the same exponent is aimed at.
  have hsame : totalExponent (m * 2 ^ (e - t).toNat) (e - (e - t).toNat) = totalExponent m e := by
    rw [totalExponent, totalExponent, hlog]
    push_cast
    ring
  rw [UnpackedFloat.round, ← ht, decreaseExponent]
  dsimp only
  rw [Nat.shiftLeft_eq]
  refine isPositive_roundWithAccuracy (by positivity) (by omega) ?_
  rw [hsame, ← ht]
  omega

/-- A product of positive numbers is rounded to one, when one of them has a long mantissa and is
at least one. -/
theorem isPositive_product (hpos : 0 < m) (he : F.minExponent ≤ e) (hn : 0 < n)
    (hlong : F.mantissaBits ≤ n.log2 + 1) (hone : 0 ≤ n.log2 + f) :
    IsPositive F (roundWithAccuracy F .positive (m * n) (e + f) .exact) := by
  have hlog : n.log2 ≤ (m * n).log2 :=
    (Nat.le_log2 (Nat.mul_pos hpos hn).ne').2
      ((Nat.log2_self_le hn.ne').trans (Nat.le_mul_of_pos_left n hpos))
  refine isPositive_roundWithAccuracy (Nat.mul_pos hpos hn) (by omega) (le_max_of_le_left ?_)
  rw [totalExponent]
  omega

theorem isPositive_mul (h : IsPositive F u) (hn : 0 < n) (hlong : F.mantissaBits ≤ n.log2 + 1)
    (hone : 0 ≤ n.log2 + f) :
    IsPositive F (UnpackedFloat.mul F u (.finite .positive n f hn)) ∧
      IsPositive F (UnpackedFloat.mul F (.finite .positive n f hn) u) := by
  cases u with
  | notANumber => exact h.elim
  | zero s => exact h.elim
  | infinity s =>
    obtain rfl : s = .positive := h
    exact ⟨rfl, rfl⟩
  | finite s m e hpos =>
    obtain ⟨rfl, -, he⟩ := h
    refine ⟨isPositive_product hpos he hn hlong hone, ?_⟩
    rw [UnpackedFloat.mul, Nat.mul_comm, Int.add_comm]
    exact isPositive_product hpos he hn hlong hone

/-! ### Counts -/

theorem isPositive_pack (h : IsPositive .binary32 u) :
    IsPositive .binary32 (Float32.ofModel (.pack u)).toModel.unpack :=
  isPositive_unpack_pack h

theorem ofScientific_eq (h : 0 < n) :
    UnpackedFloat.ofScientific .binary32 n 0 =
      roundWithAccuracy .binary32 .positive (n * 2 ^ 24) (-24) .exact := by
  have hpow : (0 : ℤ) ≤ 2 ^ Format.binary32.exponentBits := by positivity
  rw [UnpackedFloat.ofScientific, dif_neg h.ne', if_neg (by omega), if_neg (by omega),
    if_pos le_rfl]
  simp only [UnpackedFloat.mul, Int.toNat_zero, pow_zero, Nat.mul_one, Nat.shiftLeft_eq, add_zero]
  rfl

theorem isPositive_ofScientific (h : 0 < n) :
    IsPositive .binary32 (UnpackedFloat.ofScientific .binary32 n 0) := by
  have hlog := log2_mul_two_pow h 24
  have hmin : Format.binary32.minExponent = -149 := rfl
  have hbits : Format.binary32.mantissaBits = 24 := rfl
  rw [ofScientific_eq h]
  refine isPositive_roundWithAccuracy (by positivity) (by omega) (le_max_of_le_left ?_)
  rw [totalExponent, hbits]
  omega

theorem isPositive_normalize (h : 0 < n) :
    IsPositive .binary32 (UnpackedFloat.normalize .binary32 n 0 .positive) := by
  have hcompare : compare (n : ℤ) 0 = .gt := Int.compare_eq_gt.2 (by omega)
  rw [UnpackedFloat.normalize, hcompare]
  refine isPositive_round (by simpa using h) ?_
  change (-149 : ℤ) ≤ _
  omega

/-- A count that is not zero is a positive number or infinity. -/
theorem isPositive_ofNat (h : 0 < n) : IsPositive .binary32 (Float32.ofNat n).toModel.unpack := by
  change IsPositive .binary32 (Float32.ofScientific n false 0).toModel.unpack
  by_cases hn : n < 2 ^ 23 ∧ 0 ≤ 10
  · -- A small count is converted and multiplied by one.
    have hnat : n.toUInt64.toNat = n := Nat.mod_eq_of_lt (by omega)
    have hcount : IsPositive .binary32 n.toUInt64.toFloat32.toModel.unpack := by
      change IsPositive .binary32 (Float32.ofModel (.pack (UnpackedFloat.normalize .binary32
        (n.toUInt64.toNat : ℕ) 0 .positive))).toModel.unpack
      rw [hnat]
      exact isPositive_pack (isPositive_normalize h)
    have hone : (Float32.ofBits 0x3F800000).toModel.unpack =
        .finite .positive 8388608 (-23) (by decide) := rfl
    rw [Float32.ofScientific, dif_pos hn]
    refine isPositive_pack (u := UnpackedFloat.mul _ n.toUInt64.toFloat32.toModel.unpack
      (Float32.ofBits 0x3F800000).toModel.unpack) ?_
    rw [hone]
    exact (isPositive_mul hcount _ (by decide +kernel) (by decide +kernel)).1
  · rw [Float32.ofScientific, dif_neg hn]
    exact isPositive_pack (isPositive_ofScientific h)

theorem isPositive_ten_mul {x : Float32} (h : IsPositive .binary32 x.toModel.unpack) :
    IsPositive .binary32 (Float32.ofNat 10 * x).toModel.unpack := by
  have hbits : Float32.ofNat 10 = .ofBits 0x41200000 := by decide +kernel
  have hten : (Float32.ofBits 0x41200000).toModel.unpack =
      .finite .positive 10485760 (-20) (by decide) := rfl
  rw [hbits]
  refine isPositive_pack (u := UnpackedFloat.mul _ (Float32.ofBits 0x41200000).toModel.unpack
    x.toModel.unpack) ?_
  rw [hten]
  exact (isPositive_mul h _ (by decide +kernel) (by decide +kernel)).2

/-- Zero divided by a positive number or infinity is zero. -/
theorem zero_div {x : Float32} (h : IsPositive .binary32 x.toModel.unpack) :
    Float32.ofNat 0 / x = 0 := by
  have hbits : Float32.ofNat 0 = .ofBits 0 := by decide +kernel
  have hzero : (Float32.ofBits 0).toModel.unpack = .zero .positive := rfl
  have hdiv : UnpackedFloat.div .binary32 (.zero .positive) x.toModel.unpack = .zero .positive := by
    cases hx : x.toModel.unpack with
    | notANumber => rw [hx] at h; exact h.elim
    | zero s => rw [hx] at h; exact h.elim
    | infinity s =>
      rw [hx] at h
      obtain rfl : s = .positive := h
      rfl
    | finite s m e hpos =>
      rw [hx] at h
      obtain ⟨rfl, -⟩ := h
      rfl
  rw [hbits]
  change Float32.ofModel (.pack (UnpackedFloat.div .binary32 (Float32.ofBits 0).toModel.unpack
    x.toModel.unpack)) = 0
  rw [hzero, hdiv]
  decide +kernel

end Floating

end Phrasebook
