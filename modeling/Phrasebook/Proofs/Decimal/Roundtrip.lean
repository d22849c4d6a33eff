import Phrasebook.Proofs.Decimal.Clearance
import Phrasebook.Proofs.Decimal.Numeral
import Phrasebook.Proofs.Decimal.Single

/-!
# Numbers of single precision are read back

The shortest numeral of a finite number of single precision stands for that number. What it is read
as in double precision is as close to the shortest decimal as two roundings leave it, and so it is
rounded to the number again. For the one fraction whose decimal is too close to a bound this is
computed.

* `Numeral.Writes.exists_value`: what the numeral of a decimal stands for.
* `BinaryFraction.IsSingle.value?_ofDecimal`: the numeral of a fraction of single precision.
* `Numeral.unpack_eq_finite`: the fraction that is found in the bits of a number.
* `Numeral.exists_ofSingle?`: every finite number is read back from its numeral.
-/

namespace Phrasebook

open Float.Model Float.Model.UnpackedFloat Floating

/-- The sign of a number that may be negative. -/
def signOf (negative : Bool) : Sign := if negative then .negative else .positive

namespace Numeral

theorem holds_signed {n : Numeral} {y : Float} {u : ℚ} (h : Holds y .positive u) :
    Holds (n.signed y) (signOf n.negative) u := by
  rw [signed, signOf]
  split
  · exact h.neg
  · exact h

variable {n : Numeral} {negative : Bool} {d : ℕ} {e : ℤ}

/-- What a numeral that is written like a decimal stands for is close to it. -/
theorem Writes.exists_value (h : n.Writes negative d e) (hd : 0 < d) (hd' : d < 2 ^ 30)
    (hlo : -46 ≤ e) (hhi : e ≤ 38) :
    ∃ y u, n.value? = some (.real y) ∧ Holds y (signOf negative) u ∧
      |u - d * 10 ^ e| ≤ 3 / 2 ^ 53 * (d * 10 ^ e) ∧
      (-22 ≤ e → e ≤ 22 → Rounded (d * 10 ^ e) u) := by
  rcases h.value with ⟨hdigits, hexp⟩ | ⟨hdigits, hexp, he, hsmall⟩
  · obtain ⟨y, u, hscale, hholds, hclose, hround⟩ :=
      exists_scale? hd (hd'.trans (by norm_num)) (by omega : -60 ≤ e) (by omega)
    refine ⟨n.signed y, u, ?_, h.negative_eq ▸ holds_signed hholds, hclose, hround⟩
    rw [value?_of_digits hdigits (hd'.trans (by norm_num)) h.real h.exponent_lt, hexp, hscale]
    rfl
  · -- The digits are taken ten times, and are divided by ten again.
    have hpos : 0 < d * 10 ^ (e.toNat + 1) := Nat.mul_pos hd (by positivity)
    have hlt : d * 10 ^ (e.toNat + 1) < 2 ^ 53 := by
      rw [pow_succ, ← mul_assoc]
      omega
    obtain ⟨y, u, hscale, hholds, hclose, hround⟩ :=
      exists_scale? hpos hlt (by decide : -60 ≤ (-1 : ℤ)) (by decide)
    have hvalue : ((d * 10 ^ (e.toNat + 1) : ℕ) : ℚ) * 10 ^ (-1 : ℤ) = d * 10 ^ e := by
      have he' : (10 : ℚ) ^ e = 10 ^ e.toNat := by
        rw [← zpow_natCast, Int.toNat_of_nonneg he]
      rw [he', pow_succ]
      push_cast
      norm_num
      ring
    rw [hvalue] at hclose hround
    refine ⟨n.signed y, u, ?_, h.negative_eq ▸ holds_signed hholds, hclose,
      fun _ _ => hround (by decide) (by decide)⟩
    rw [value?_of_digits hdigits (hlt.trans (by norm_num)) h.real h.exponent_lt, hexp, hscale]
    rfl

end Numeral

namespace BinaryFraction

variable {x : BinaryFraction}

theorem value?_exception (negative : Bool) :
    (Numeral.ofDecimal Numeral.singleStyle negative exception.shortest).value?.map
        Number.toSingle =
      some (.ofModel (.pack (.finite (signOf negative) exception.mantissa exception.exponent
        (by decide)))) := by
  cases negative <;> decide +kernel

/-- The shortest numeral of a fraction of single precision is in order and stands for the
fraction. -/
theorem IsSingle.value?_ofDecimal (hx : x.IsSingle) (negative : Bool) :
    (Numeral.ofDecimal Numeral.singleStyle negative x.shortest).Proper ∧
      (Numeral.ofDecimal Numeral.singleStyle negative x.shortest).value?.map Number.toSingle =
        some (.ofModel (.pack (.finite (signOf negative) x.mantissa x.exponent
          hx.mantissa_pos))) := by
  obtain ⟨d, e, hshortest, hnearest, hnext⟩ := hx.exists_shortest
  have hattracts := (nearest?_spec hx.mantissa_pos hnearest).1
  obtain ⟨hd, hd', hlo, hhi⟩ := hx.bounds hattracts hnext
  have hwrites := Numeral.writes_ofDecimal negative hd hd' hlo hhi
    (le_refl Numeral.singleStyle.highest)
  by_cases hexcept : x = exception
  · -- The decimal of one fraction is too close to a bound for the general argument.
    subst hexcept
    exact ⟨by rw [hshortest]; exact hwrites.proper, value?_exception negative⟩
  · obtain ⟨y, u, hvalue, hholds, hclose, hround⟩ := hwrites.exists_value hd hd' hlo hhi
    have hu : x.Attracts u :=
      hx.attracts_of_close (hx.clear hexcept hshortest hnearest hnext) hattracts hd hd' hclose
        fun hge hle n k hn heq => by rw [(hround hge hle).exact n k hn heq, heq]
    rw [hshortest]
    refine ⟨hwrites.proper, ?_⟩
    rw [hvalue, Option.map_some, Number.toSingle, hx.roundToSingle_eq hholds hu]

end BinaryFraction

namespace Numeral

/-! ### The fields of a number of single precision -/

variable (b : BitVec Format.binary32.numBits)

theorem toNat_unpackMantissa : (unpackMantissa b).toNat = b.toNat % .pow 2 23 := by
  simp [unpackMantissa]

theorem toNat_unpackExponent : (unpackExponent b).toNat = b.toNat / .pow 2 23 % .pow 2 8 := by
  simp [unpackExponent, Nat.shiftRight_eq_div_pow]

theorem toNat_unpackSign : (unpackSign b).toNat = b.toNat / .pow 2 31 := by
  have hlt : b.toNat < 2 ^ 32 := b.isLt
  simp [unpackSign, Nat.shiftRight_eq_div_pow]
  omega

theorem ofBitVec_unpackSign :
    Sign.ofBitVec (unpackSign b) = signOf (decide (b.toNat / .pow 2 31 = 1)) := by
  have hsign := toNat_unpackSign b
  have hlt := (unpackSign b).isLt
  by_cases hone : b.toNat / .pow 2 31 = 1
  · have hne : unpackSign b ≠ 0#1 := fun h => by
      rw [h, hone] at hsign
      cases hsign
    rw [Sign.ofBitVec, if_neg hne, decide_eq_true hone]
    rfl
  · have heq : unpackSign b = 0#1 := BitVec.toNat_inj.1 (by change _ = 0; omega)
    rw [Sign.ofBitVec, if_pos heq, decide_eq_false hone]
    rfl

/-- The fraction with the fields of a finite number is one of single precision. -/
theorem isSingle_of_ofFields? {x : BinaryFraction} {e m : ℕ} (he : e < 255) (hm : m < 2 ^ 23)
    (h : BinaryFraction.ofFields? 23 (-149) e m = some x) : x.IsSingle := by
  rw [BinaryFraction.ofFields?] at h
  split_ifs at h with hezero hmzero
  · obtain rfl := Option.some.inj h
    exact ⟨Nat.pos_of_ne_zero hmzero, hm.trans (by decide), le_refl _,
      (by decide : (-149 : ℤ) ≤ 104), .inl rfl,
      iff_of_false Bool.false_ne_true fun h => absurd h.2 (lt_irrefl _)⟩
  · obtain rfl := Option.some.inj h
    refine ⟨Nat.add_pos_left (by decide) m, ?_, ?_, ?_, .inr (Nat.le_add_right _ _), ?_⟩
    · change 2 ^ 23 + m < 2 ^ 24
      omega
    · change -149 ≤ -149 + ((e - 1 : ℕ) : ℤ)
      omega
    · change -149 + ((e - 1 : ℕ) : ℤ) ≤ 104
      omega
    · change decide (m = 0 ∧ 1 < e) = true ↔ 2 ^ 23 + m = 2 ^ 23 ∧ -149 < -149 + ((e - 1 : ℕ) : ℤ)
      rw [decide_eq_true_iff]
      omega

/-- A number is unpacked as the fraction with its fields. -/
theorem unpack_eq_finite {x : BinaryFraction} (hexp : b.toNat / .pow 2 23 % .pow 2 8 ≠ 255)
    (hfields : BinaryFraction.ofFields? 23 (-149) (b.toNat / .pow 2 23 % .pow 2 8)
      (b.toNat % .pow 2 23) = some x) (hpos : 0 < x.mantissa) :
    UnpackedFloat.unpack _ b =
      .finite (signOf (b.toNat / .pow 2 31 = 1)) x.mantissa x.exponent hpos := by
  have hmantissa := toNat_unpackMantissa b
  have hexponent := toNat_unpackExponent b
  have hsign := ofBitVec_unpackSign b
  generalize b.toNat / .pow 2 23 % .pow 2 8 = e at *
  generalize b.toNat % .pow 2 23 = m at *
  have hone : unpackExponent b ≠ -1#_ := fun h => hexp (by rw [← hexponent, h]; rfl)
  simp only [UnpackedFloat.unpack, hone, ↓reduceIte, hsign]
  rw [BinaryFraction.ofFields?] at hfields
  split_ifs at hfields with hezero hmzero
  · -- A subnormal number has its mantissa in full.
    obtain rfl := Option.some.inj hfields
    have hzero : unpackExponent b = 0#_ := BitVec.toNat_inj.1 (by rw [hexponent, hezero]; rfl)
    have hne : unpackMantissa b ≠ 0#_ := fun h => hmzero (by rw [← hmantissa, h]; rfl)
    simp only [hzero, ↓reduceIte, hne, ↓reduceDIte]
    congr 1
  · -- Of a normal number the first bit is not written.
    obtain rfl := Option.some.inj hfields
    have hne : unpackExponent b ≠ 0#_ := fun h => hezero (by rw [← hexponent, h]; rfl)
    simp only [hne, ↓reduceIte]
    congr 1
    · rw [toNat_one_append, hmantissa]
      rfl
    · rw [hexponent]
      change (e : ℤ) - ((127 : ℕ) + (23 : ℕ)) = -149 + ((e - 1 : ℕ) : ℤ)
      omega

theorem ofFields?_eq_none {e m : ℕ} (h : BinaryFraction.ofFields? 23 (-149) e m = none) :
    e = 0 ∧ m = 0 := by
  rw [BinaryFraction.ofFields?] at h
  split_ifs at h with he hm
  exact ⟨he, hm⟩

theorem isFinite_iff {w : Float32} :
    w.isFinite = true ↔ w.toBits.toNat / .pow 2 23 % .pow 2 8 ≠ 255 := by
  have hexponent := toNat_unpackExponent w.toModel.toBits.toBitVec
  change (UnpackedFloat.unpack .binary32 w.toModel.toBits.toBitVec).isFinite = true ↔
    w.toModel.toBits.toBitVec.toNat / _ % _ ≠ 255
  rw [← hexponent]
  obtain ⟨b, hb⟩ : ∃ b : BitVec Format.binary32.numBits, w.toModel.toBits.toBitVec = b := ⟨_, rfl⟩
  rw [hb]
  by_cases hone : unpackExponent b = -1#_
  · refine iff_of_false ?_ (not_not.2 (by rw [hone]; rfl))
    rw [UnpackedFloat.unpack]
    simp only [hone, ↓reduceIte]
    split_ifs <;> exact Bool.false_ne_true
  · refine iff_of_true ?_ (fun h => hone (BitVec.toNat_inj.1 (by rw [h]; rfl)))
    rw [UnpackedFloat.unpack]
    simp only [hone, ↓reduceIte]
    split_ifs <;> rfl

theorem eq_zero_of_fields {w : Float32} (he : w.toBits.toNat / .pow 2 23 % .pow 2 8 = 0)
    (hm : w.toBits.toNat % .pow 2 23 = 0) : w = 0 ∨ w = -0 := by
  have hlt : w.toBits.toNat < 2 ^ 32 := w.toBits.toNat_lt
  have hdec : w.toBits.toNat = 0 ∨ w.toBits.toNat = 2 ^ 31 := by
    change _ / 2 ^ 23 % 2 ^ 8 = 0 at he
    change _ % 2 ^ 23 = 0 at hm
    omega
  rcases hdec with hzero | hzero
  · exact .inl (Float32.toBits_inj.1 (UInt32.toNat_inj.1 hzero))
  · exact .inr (Float32.toBits_inj.1 (UInt32.toNat_inj.1 hzero))

/-- The numeral of a finite number of single precision is in order and stands for it. -/
theorem exists_ofSingle? {w : Float32} (hw : w.isFinite = true) :
    ∃ n, ofSingle? w = some n ∧ n.Proper ∧ n.value?.map Number.toSingle = some w := by
  have hexp := isFinite_iff.1 hw
  simp only [ofSingle?, if_neg hexp]
  cases hfields : BinaryFraction.ofFields? 23 (-149) (w.toBits.toNat / .pow 2 23 % .pow 2 8)
      (w.toBits.toNat % .pow 2 23) with
  | none =>
    obtain ⟨he, hm⟩ := ofFields?_eq_none hfields
    refine ⟨_, rfl, proper_zero _, ?_⟩
    obtain rfl | rfl := eq_zero_of_fields he hm <;> decide +kernel
  | some x =>
    have hx : x.IsSingle := isSingle_of_ofFields?
      (Nat.lt_of_le_of_ne (Nat.le_of_lt_succ (Nat.mod_lt _ (by decide))) hexp)
      (Nat.mod_lt _ (by decide)) hfields
    have hunpack := unpack_eq_finite w.toModel.toBits.toBitVec hexp hfields hx.mantissa_pos
    obtain ⟨hproper, hvalue⟩ := hx.value?_ofDecimal (w.toBits.toNat / .pow 2 31 = 1)
    refine ⟨_, rfl, hproper, hvalue.trans ?_⟩
    have hmodel : w.toModel.unpack = .finite _ x.mantissa x.exponent _ := hunpack
    have hpack : Float32.ofModel (.pack w.toModel.unpack) = w := Float32.ofBits_toBits w
    rw [hmodel] at hpack
    exact congrArg some hpack

end Numeral

end Phrasebook
