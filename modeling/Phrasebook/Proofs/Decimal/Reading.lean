import Phrasebook.Proofs.Decimal.Scaling

/-!
# What numerals stand for are numbers

No numeral stands for something that is not a number. Rounding never makes such a thing, and neither
does a product with, or a quotient by, what is neither zero nor infinite, as powers of ten are not.
A numeral may still stand for an infinity in single precision.

* `Floating.isNaN_unpack_pack`: what is packed as a number is unpacked as one.
* `Floating.IsOrdinary`: neither zero nor infinite.
* `Numeral.isNaN_toSingle`: what a numeral stands for in single precision.
-/

namespace Phrasebook

open Float.Model Float.Model.UnpackedFloat

namespace Floating

variable {F : Format} {s : Sign} {u v : UnpackedFloat}

theorem isNaN_roundWithAccuracy (m : ℕ) (e : ℤ) (accuracy : Accuracy) :
    (roundWithAccuracy F s m e accuracy).isNaN = false := by
  fun_cases roundWithAccuracy <;> rfl

/-- Bits whose exponent is not the last one, or whose mantissa is zero, are those of a number. -/
theorem isNaN_unpack_packComponents {exponent : BitVec F.exponentBits}
    {mantissa : BitVec F.mantissaBitsWithoutImplicit}
    (h : exponent = -1#_ → mantissa = 0#_) :
    (UnpackedFloat.unpack F (packComponents F s exponent mantissa)).isNaN = false := by
  rw [UnpackedFloat.unpack]
  simp only [unpackMantissa_packComponents, unpackExponent_packComponents]
  split_ifs with hone hzero
  · rfl
  · exact absurd (h hone) hzero
  · rfl
  · rfl
  · rfl

/-- What is written and is a number is read as a number. -/
theorem isNaN_unpack_pack (hF : 2 ≤ F.exponentBits) (h : u.isNaN = false) :
    (UnpackedFloat.unpack F (UnpackedFloat.pack F u)).isNaN = false := by
  have hones : (-1#F.exponentBits).toNat = 2 ^ F.exponentBits - 1 := by
    rw [BitVec.neg_one_eq_allOnes, BitVec.toNat_allOnes]
  have hpow : 2 ^ 2 ≤ 2 ^ F.exponentBits := Nat.pow_le_pow_right (by decide) hF
  fun_cases UnpackedFloat.pack F u with
  | case1 => cases h
  | case2 => exact isNaN_unpack_packComponents fun _ => rfl
  | case3 => exact isNaN_unpack_packComponents fun _ => rfl
  | case4 => exact isNaN_unpack_packComponents fun _ => rfl
  | case5 s m e hpos bits biased hlt hbits =>
    refine isNaN_unpack_packComponents fun heq => ?_
    have hbiased := congrArg BitVec.toNat heq
    rw [BitVec.toNat_ofNat, Nat.mod_eq_of_lt (by omega), hones] at hbiased
    omega
  | case6 s m e hpos bits biased hlt hbits =>
    refine isNaN_unpack_packComponents fun heq => ?_
    have hzero := congrArg BitVec.toNat heq
    rw [BitVec.toNat_ofNat, Nat.zero_mod, hones] at hzero
    omega

theorem isNaN_round (m : ℕ) (e : ℤ) : (round F s m e).isNaN = false :=
  isNaN_roundWithAccuracy _ _ _

theorem isNaN_normalize (m e : ℤ) : (UnpackedFloat.normalize F m e s).isNaN = false := by
  fun_cases UnpackedFloat.normalize with
  | case1 => exact isNaN_round _ _
  | case2 => rfl
  | case3 => exact isNaN_round _ _

/-- A number times a number other than zero and infinity is a number. -/
theorem isNaN_mul {t : Sign} {m : ℕ} {e : ℤ} {hpos : 0 < m} (h : u.isNaN = false) :
    (UnpackedFloat.mul F u (.finite t m e hpos)).isNaN = false := by
  cases u with
  | notANumber => cases h
  | infinity s => rfl
  | zero s => rfl
  | finite s n f _ => exact isNaN_roundWithAccuracy _ _ _

/-- A number divided by a number other than zero and infinity is a number. -/
theorem isNaN_div {t : Sign} {m : ℕ} {e : ℤ} {hpos : 0 < m} (h : u.isNaN = false) :
    (UnpackedFloat.div F u (.finite t m e hpos)).isNaN = false := by
  cases u with
  | notANumber => cases h
  | infinity s => rfl
  | zero s => rfl
  | finite s n f _ => exact isNaN_roundWithAccuracy _ _ _

theorem isNaN_ofScientific (m : ℕ) (e : ℤ) : (UnpackedFloat.ofScientific F m e).isNaN = false := by
  fun_cases UnpackedFloat.ofScientific with
  | case1 => rfl
  | case2 => rfl
  | case3 => rfl
  | case4 => exact isNaN_mul rfl
  | case5 => exact isNaN_div rfl

theorem isNaN_pack_double (h : u.isNaN = false) : (Float.ofModel (.pack u)).isNaN = false :=
  isNaN_unpack_pack (F := .binary64) (by decide) h

theorem isNaN_pack_single (h : u.isNaN = false) : (Float32.ofModel (.pack u)).isNaN = false :=
  isNaN_unpack_pack (F := .binary32) (by decide) h

/-- Neither a zero nor an infinity. -/
def IsOrdinary (x : Float) : Prop := ∃ s m e hpos, x.toModel.unpack = .finite s m e hpos

theorem Holds.isOrdinary {x : Float} {v : ℚ} (h : Holds x s v) : IsOrdinary x := by
  obtain ⟨m, e, hpos, hunpack, -⟩ := h
  exact ⟨s, m, e, hpos, hunpack⟩

theorem isOrdinary_of_ne_zero {x : Float} (hfinite : x.isFinite = true) (hne : (x == 0) = false) :
    IsOrdinary x := by
  change x.toModel.unpack.isFinite = true at hfinite
  change x.toModel.unpack.beq (0 : Float).toModel.unpack = false at hne
  cases hu : x.toModel.unpack with
  | notANumber => rw [hu] at hfinite; cases hfinite
  | infinity s => rw [hu] at hfinite; cases hfinite
  | zero s =>
    rw [hu] at hne
    cases s <;> exact absurd hne (by decide +kernel)
  | finite s m e hpos => exact ⟨s, m, e, hpos, hu⟩

theorem isNaN_mul_of_isOrdinary {x y : Float} (hx : x.isNaN = false) (hy : IsOrdinary y) :
    (x * y).isNaN = false := by
  obtain ⟨t, m, e, hpos, hunpack⟩ := hy
  refine isNaN_pack_double (u := UnpackedFloat.mul _ x.toModel.unpack y.toModel.unpack) ?_
  rw [hunpack]
  exact isNaN_mul hx

theorem isNaN_div_of_isOrdinary {x y : Float} (hx : x.isNaN = false) (hy : IsOrdinary y) :
    (x / y).isNaN = false := by
  obtain ⟨t, m, e, hpos, hunpack⟩ := hy
  refine isNaN_pack_double (u := UnpackedFloat.div _ x.toModel.unpack y.toModel.unpack) ?_
  rw [hunpack]
  exact isNaN_div hx

theorem isNaN_ofNat (n : ℕ) : (Float.ofNat n).isNaN = false := by
  change (Float.ofScientific n false 0).isNaN = false
  by_cases hn : n < 2 ^ 53 ∧ 0 ≤ 22
  · rw [Float.ofScientific, dif_pos hn]
    exact isNaN_mul_of_isOrdinary (isNaN_pack_double (isNaN_normalize _ _)) holds_one.isOrdinary
  · rw [Float.ofScientific, dif_neg hn]
    exact isNaN_pack_double (isNaN_ofScientific _ _)

theorem isNaN_ofNat_single (n : ℕ) : (Float32.ofNat n).isNaN = false := by
  change (Float32.ofScientific n false 0).isNaN = false
  by_cases hn : n < 2 ^ 23 ∧ 0 ≤ 10
  · rw [Float32.ofScientific, dif_pos hn]
    have hone : ∃ hpos, (Float32.ofBits 0x3F800000).toModel.unpack =
        .finite .positive 8388608 (-23) hpos := ⟨by decide, rfl⟩
    obtain ⟨hpos, hunpack⟩ := hone
    refine isNaN_pack_single (u := UnpackedFloat.mul _ n.toUInt64.toFloat32.toModel.unpack
      (Float32.ofBits 0x3F800000).toModel.unpack) ?_
    rw [hunpack]
    exact isNaN_mul (isNaN_pack_single (isNaN_normalize _ _))
  · rw [Float32.ofScientific, dif_neg hn]
    exact isNaN_pack_single (isNaN_ofScientific _ _)

theorem isNaN_neg_unpacked (h : u.isNaN = false) : u.neg.isNaN = false := by
  cases u with
  | notANumber => cases h
  | infinity s => rfl
  | zero s => rfl
  | finite s m e hpos => rfl

theorem isNaN_neg {x : Float} (h : x.isNaN = false) : (-x).isNaN = false :=
  isNaN_pack_double (isNaN_neg_unpacked h)

theorem isNaN_neg_single {x : Float32} (h : x.isNaN = false) : (-x).isNaN = false :=
  isNaN_pack_single (isNaN_neg_unpacked h)

theorem isNaN_roundToSingle {x : Float} (h : x.isNaN = false) :
    (roundToSingle x).isNaN = false := by
  refine isNaN_pack_single ?_
  have hunpack : x.toModel.unpack.isNaN = false := h
  cases hu : x.toModel.unpack with
  | notANumber =>
    rw [hu] at hunpack
    cases hunpack
  | infinity s => rfl
  | zero s => rfl
  | finite s m e hpos => exact isNaN_round m e

end Floating

namespace Numeral

open Floating

theorem isOrdinary_powerOfTen {k : ℕ} (hk : k ≤ 308) : IsOrdinary (powerOfTen k) := by
  rcases Nat.lt_or_ge k 308 with hlt | hge
  · obtain ⟨p, hp, -⟩ := holds_powerOfTen (Nat.le_of_lt_succ hlt)
    exact hp.isOrdinary
  · obtain rfl := Nat.le_antisymm hk hge
    -- The highest power of ten is above the range in which rounding was bounded.
    exact isOrdinary_of_ne_zero (by decide +kernel) (by decide +kernel)

theorem isNaN_scaleDown {x : Float} (hx : x.isNaN = false) (e : ℕ) :
    (scaleDown x e).isNaN = false := by
  induction x, e using scaleDown.induct with
  | case1 x e he =>
    rw [scaleDown, if_pos he]
    exact isNaN_div_of_isOrdinary hx (isOrdinary_powerOfTen he)
  | case2 x e he hzero =>
    rw [scaleDown, if_neg he, if_pos hzero]
    exact hx
  | case3 x e he hzero ih =>
    rw [scaleDown, if_neg he, if_neg hzero]
    exact ih (isNaN_div_of_isOrdinary hx (isOrdinary_powerOfTen le_rfl))

theorem isNaN_of_scale? {x y : Float} {e : ℤ} (hx : x.isNaN = false) (h : scale? x e = some y) :
    y.isNaN = false := by
  rw [scale?] at h
  split_ifs at h with hneg hle
  · obtain rfl := Option.some.inj h
    exact isNaN_scaleDown hx _
  · dsimp only at h
    split_ifs at h
    obtain rfl := Option.some.inj h
    exact isNaN_mul_of_isOrdinary hx (isOrdinary_powerOfTen (by omega))
  · obtain rfl := Option.some.inj h
    exact hx

theorem isNaN_signed (n : Numeral) {x : Float} (hx : x.isNaN = false) :
    (n.signed x).isNaN = false := by
  rw [signed]
  split_ifs
  · exact isNaN_neg hx
  · exact hx

/-- What a numeral stands for is a number. -/
theorem isNaN_toSingle {n : Numeral} {x : Number} (h : n.value? = some x) :
    x.toSingle.isNaN = false := by
  simp only [value?] at h
  split_ifs at h
  · obtain rfl := Option.some.inj h
    exact isNaN_ofNat_single _
  · obtain rfl := Option.some.inj h
    exact isNaN_neg_single (isNaN_ofNat_single _)
  · obtain rfl := Option.some.inj h
    exact isNaN_roundToSingle (isNaN_neg (isNaN_ofNat _))
  · obtain rfl := Option.some.inj h
    exact isNaN_roundToSingle (isNaN_signed n (isNaN_ofNat 0))
  · obtain ⟨y, hy, rfl⟩ := Option.map_eq_some_iff.1 h
    exact isNaN_roundToSingle (isNaN_signed n (isNaN_of_scale? (isNaN_ofNat _) hy))

end Numeral

end Phrasebook
