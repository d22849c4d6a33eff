import Mathlib
import Phrasebook.Decimal.Numeral

/-!
# Rounding to a format

What is computed exactly is rounded in two steps. Bits are dropped until the exponent is that of the
format, where a round bit and a sticky bit remember what was dropped; then the mantissa is rounded
to the nearest natural number, of two equally near ones to the even one. Well inside the range of
double precision the result is a normal number. It is off by one part in `2 ^ 53` at most, and is
the number itself where that has few enough bits.

The lemmas about packed numbers that are used come only with the whole of Mathlib.

* `Floating.IsNearest`, `Floating.Tells`: the nearest natural number, and what the two bits tell.
* `Floating.roundWithAccuracy_eq`: rounding takes the nearest mantissa.
* `Floating.Holds`, `Floating.Rounded`: normal numbers, and how close a rounded number is.
* `Floating.holds_roundWithAccuracy`: rounding inside the range.
-/

namespace Phrasebook

namespace Floating

open Float.Model Float.Model.UnpackedFloat

/-! ### The nearest natural number -/

/-- A natural number is nearest to a rational one; of two equally near ones it is the even one. -/
def IsNearest (z : ℚ) (n : ℕ) : Prop := |z - n| < 1 / 2 ∨ |z - n| = 1 / 2 ∧ n % 2 = 0

theorem IsNearest.abs_sub_le_half {z : ℚ} {n : ℕ} (h : IsNearest z n) : |z - n| ≤ 1 / 2 :=
  h.elim le_of_lt fun h => le_of_eq h.1

theorem IsNearest.unique {z : ℚ} {m n : ℕ} (hm : IsNearest z m) (hn : IsNearest z n) : m = n := by
  have hle : |(m : ℚ) - n| ≤ 1 := by
    have htriangle := abs_sub_le (m : ℚ) z n
    have hleft := hm.abs_sub_le_half
    have hright := hn.abs_sub_le_half
    rw [abs_sub_comm] at hleft
    linarith
  by_contra hne
  -- Both are as far away as can be, so both are even, and two even numbers differ by two.
  have hfar : |(m : ℚ) - n| < 2 → m % 2 = 0 → n % 2 = 0 → False := by
    intro hlt hmeven hneven
    rw [abs_lt] at hlt
    have hupper : (m : ℤ) - n < 2 := by exact_mod_cast hlt.2
    have hlower : -2 < (m : ℤ) - n := by exact_mod_cast hlt.1
    omega
  have hge : 1 ≤ |(m : ℚ) - n| := by
    have hint : 1 ≤ |(m : ℤ) - n| := Int.one_le_abs (by omega)
    exact_mod_cast hint
  have htriangle := abs_sub_le (m : ℚ) z n
  rw [abs_sub_comm (m : ℚ) z] at htriangle
  rcases hm with hm | ⟨hm, hmeven⟩
  · linarith [hn.abs_sub_le_half]
  · rcases hn with hn | ⟨hn, hneven⟩
    · linarith
    · exact hfar (by linarith) hmeven hneven

theorem isNearest_natCast (n : ℕ) : IsNearest n n := by
  left
  rw [sub_self, abs_zero]
  norm_num

theorem IsNearest.ge {z : ℚ} {n k : ℕ} (h : IsNearest z n) (hk : (k : ℚ) ≤ z) : k ≤ n := by
  have hlt : (k : ℚ) < (n + 1 : ℕ) := by
    push_cast
    linarith [(abs_le.1 h.abs_sub_le_half).2]
  exact Nat.lt_succ_iff.1 (by exact_mod_cast hlt)

theorem IsNearest.le {z : ℚ} {n k : ℕ} (h : IsNearest z n) (hk : z ≤ k) : n ≤ k := by
  have hlt : (n : ℚ) < (k + 1 : ℕ) := by
    push_cast
    linarith [(abs_le.1 h.abs_sub_le_half).1]
  exact Nat.lt_succ_iff.1 (by exact_mod_cast hlt)

/-! ### Bits that are dropped -/

/-- A mantissa with a round bit and a sticky bit tells where a number lies. -/
def Tells (em : ExtendedMantissa) (z : ℚ) : Prop :=
  match em.roundBit, em.stickyBit with
  | false, false => z = em.mantissa
  | false, true => em.mantissa < z ∧ z < em.mantissa + 1 / 2
  | true, false => z = em.mantissa + 1 / 2
  | true, true => em.mantissa + 1 / 2 < z ∧ z < em.mantissa + 1

theorem Tells.le {em : ExtendedMantissa} {z : ℚ} (h : Tells em z) : (em.mantissa : ℚ) ≤ z := by
  obtain ⟨m, r, s⟩ := em
  cases r <;> cases s <;> simp only [Tells] at h ⊢ <;> linarith

theorem Tells.lt {em : ExtendedMantissa} {z : ℚ} (h : Tells em z) :
    z < (em.mantissa + 1 : ℕ) := by
  obtain ⟨m, r, s⟩ := em
  push_cast
  cases r <;> cases s <;> simp only [Tells] at h ⊢ <;> linarith

/-- A shift by one halves the number. -/
theorem Tells.shiftRightOne {em : ExtendedMantissa} {z : ℚ} (h : Tells em z) :
    Tells em.shiftRightOne (z / 2) := by
  obtain ⟨m, r, s⟩ := em
  -- The last bit becomes the round bit, and both bits that were there become sticky.
  obtain ⟨k, rfl | rfl⟩ : ∃ k, m = 2 * k ∨ m = 2 * k + 1 := ⟨m / 2, by omega⟩
  · have hdiv : 2 * k / 2 = k := by omega
    cases r <;> cases s <;>
      simp only [Tells, ExtendedMantissa.shiftRightOne, hdiv, Nat.mul_mod_right, Bool.or_true,
        Bool.or_false] at h ⊢ <;>
      push_cast at h ⊢ <;> first | linarith | exact ⟨by linarith, by linarith⟩
  · have hdiv : (2 * k + 1) / 2 = k := by omega
    have hmod : (2 * k + 1) % 2 = 1 := by omega
    cases r <;> cases s <;>
      simp only [Tells, ExtendedMantissa.shiftRightOne, hdiv, hmod, Bool.or_true,
        Bool.or_false] at h ⊢ <;>
      push_cast at h ⊢ <;> first | linarith | exact ⟨by linarith, by linarith⟩

theorem Tells.shiftRight {em : ExtendedMantissa} {z : ℚ} (h : Tells em z) (n : ℕ) :
    Tells (em >>> n) (z / 2 ^ n) := by
  induction n with
  | zero =>
    rw [pow_zero, div_one]
    exact h
  | succ n ih =>
    have hshift : em >>> (n + 1) = (em >>> n).shiftRightOne := rfl
    rw [hshift, pow_succ, ← div_div]
    exact ih.shiftRightOne

/-- The two bits are enough to find the nearest number. -/
theorem Tells.isNearest {em : ExtendedMantissa} {z : ℚ} (h : Tells em z) :
    IsNearest z em.roundedMantissa := by
  obtain ⟨m, r, s⟩ := em
  cases r <;> cases s <;> simp only [Tells] at h <;>
    simp only [ExtendedMantissa.roundedMantissa, ExtendedMantissa.accuracy,
      Accuracy.roundToNearestEven]
  · rw [h]
    exact isNearest_natCast m
  · left
    rw [abs_lt]
    exact ⟨by linarith, by linarith⟩
  · right
    obtain ⟨k, rfl | rfl⟩ : ∃ k, m = 2 * k ∨ m = 2 * k + 1 := ⟨m / 2, by omega⟩
    · have hmod : 2 * k + 2 * k % 2 = 2 * k := by omega
      rw [hmod, h, add_sub_cancel_left]
      exact ⟨by norm_num, by omega⟩
    · have hmod : 2 * k + 1 + (2 * k + 1) % 2 = 2 * k + 2 := by omega
      rw [hmod, h]
      refine ⟨?_, by omega⟩
      push_cast
      rw [show (2 * k + 1 + 1 / 2 - (2 * k + 2) : ℚ) = -(1 / 2) by ring, abs_neg]
      norm_num
  · left
    push_cast
    rw [abs_lt]
    exact ⟨by linarith, by linarith⟩

@[simp]
theorem mantissa_ofMantissaAndAccuracy (m : ℕ) (acc : Accuracy) :
    (ExtendedMantissa.ofMantissaAndAccuracy m acc).mantissa = m := by
  cases acc with
  | exact => rfl
  | inexact o => cases o <;> rfl

theorem tells_exact (m : ℕ) : Tells (.ofMantissaAndAccuracy m .exact) m := rfl

/-- What is left of a division tells where the quotient lies. -/
theorem tells_quotient (n : ℕ) {d : ℕ} (hd : 0 < d) :
    Tells (.ofMantissaAndAccuracy (n / d) (accuracyOfFraction (n % d) d)) (n / d : ℚ) := by
  have hd' : (0 : ℚ) < d := by exact_mod_cast hd
  have hvalue : (n / d : ℚ) = (n / d : ℕ) + (n % d : ℕ) / d := by
    have hmod : (n : ℚ) = (n / d : ℕ) * d + (n % d : ℕ) := by
      exact_mod_cast (Nat.div_add_mod' n d).symm
    rw [add_div_eq_mul_add_div _ _ hd'.ne', ← hmod]
  have hlt : ((n % d : ℕ) : ℚ) / d < 1 := by
    rw [div_lt_one hd']
    exact_mod_cast Nat.mod_lt n hd
  -- The fraction of the quotient is compared with a half as twice the rest is with the divisor.
  rw [hvalue, accuracyOfFraction]
  split
  · next hzero =>
    rw [hzero]
    simp [Tells, ExtendedMantissa.ofMantissaAndAccuracy]
  · next hzero =>
    have hpos : (0 : ℚ) < (n % d : ℕ) / d :=
      div_pos (by exact_mod_cast Nat.pos_of_ne_zero hzero) hd'
    have hhalf : ((n % d : ℕ) : ℚ) / d < 1 / 2 ↔ 2 * (n % d) < d := by
      rw [div_lt_div_iff₀ hd' two_pos]
      norm_cast
      omega
    have hhalf' : (1 / 2 : ℚ) < (n % d : ℕ) / d ↔ d < 2 * (n % d) := by
      rw [div_lt_div_iff₀ two_pos hd']
      norm_cast
      omega
    rcases Nat.lt_trichotomy (2 * (n % d)) d with h | h | h
    · rw [Nat.compare_eq_lt.2 h]
      change ((n / d : ℕ) : ℚ) < _ ∧ _ < ((n / d : ℕ) : ℚ) + 1 / 2
      exact ⟨by linarith, by linarith [hhalf.2 h]⟩
    · rw [Nat.compare_eq_eq.2 h]
      have heq : ((n % d : ℕ) : ℚ) / d = 1 / 2 := le_antisymm
        (not_lt.1 fun hlt => absurd (hhalf'.1 hlt) (by omega))
        (not_lt.1 fun hlt => absurd (hhalf.1 hlt) (by omega))
      rw [heq]
      rfl
    · rw [Nat.compare_eq_gt.2 h]
      change ((n / d : ℕ) : ℚ) + 1 / 2 < _ ∧ _ < ((n / d : ℕ) : ℚ) + 1
      exact ⟨by linarith [hhalf'.2 h], by linarith⟩

/-! ### Rounding to a format -/

variable {fmt : Format} {s : Sign} {m : ℕ} {e : ℤ} {acc : Accuracy} {z : ℚ}

/-- The number whose mantissa was rounded. A mantissa that has got a bit too many is halved. -/
def carried (fmt : Format) (s : Sign) (m : ℕ) (e : ℤ) : UnpackedFloat :=
  if h : m = 0 then .zero s
  else if m < 2 ^ fmt.mantissaBits then .finite s m e (Nat.pos_of_ne_zero h)
  else .finite s (2 ^ fmt.mantissaBitsWithoutImplicit) (e + 1) (Nat.two_pow_pos _)

theorem mantissaBits_eq (fmt : Format) :
    fmt.mantissaBits = fmt.mantissaBitsWithoutImplicit + 1 := Nat.add_comm _ _

/-- A mantissa that is short enough is not shifted. -/
theorem shiftToTargetExponent_of_lt (hm : m < 2 ^ fmt.mantissaBits) (he : fmt.minExponent ≤ e) :
    shiftToTargetExponent fmt m e .exact = (⟨m, false, false⟩, e) := by
  have hlog : m.log2 < fmt.mantissaBits := by
    rcases Nat.eq_zero_or_pos m with rfl | hpos
    · rw [mantissaBits_eq]
      exact Nat.succ_pos _
    · exact (Nat.log2_lt hpos.ne').2 hm
  have hshift : (fmt.targetExponent (totalExponent m e) - e).toNat = 0 := by
    rw [Format.targetExponent, totalExponent]
    omega
  rw [shiftToTargetExponent, shiftToExponent, hshift]
  exact congrArg _ (add_zero e)

/-- A mantissa with one bit too many is shifted by one. -/
theorem shiftToTargetExponent_two_pow (he : fmt.minExponent ≤ e) :
    shiftToTargetExponent fmt (2 ^ fmt.mantissaBits) e .exact =
      (⟨2 ^ fmt.mantissaBitsWithoutImplicit, false, false⟩, e + 1) := by
  have hshift : (fmt.targetExponent (totalExponent (2 ^ fmt.mantissaBits) e) - e).toNat = 1 := by
    rw [Format.targetExponent, totalExponent, Nat.log2_two_pow]
    omega
  rw [shiftToTargetExponent, shiftToExponent, hshift]
  have hdiv : 2 ^ fmt.mantissaBits / 2 = 2 ^ fmt.mantissaBitsWithoutImplicit := by
    rw [mantissaBits_eq, Nat.pow_succ, Nat.mul_div_cancel _ two_pos]
  have hmod : 2 ^ fmt.mantissaBits % 2 = 0 := by
    rw [mantissaBits_eq, Nat.pow_succ, Nat.mul_mod_left]
  change (ExtendedMantissa.shiftRightOne ⟨_, false, false⟩, _) = _
  simp only [ExtendedMantissa.shiftRightOne, hdiv, hmod]
  rfl

/-- Rounding takes the mantissa that is nearest in the exponent of the format. -/
theorem roundWithAccuracy_eq (htells : Tells (.ofMantissaAndAccuracy m acc) z)
    (he : e ≤ fmt.targetExponent (totalExponent m e)) :
    ∃ n, IsNearest (z / 2 ^ (fmt.targetExponent (totalExponent m e) - e)) n ∧
      roundWithAccuracy fmt s m e acc =
        carried fmt s n (fmt.targetExponent (totalExponent m e)) := by
  generalize ht : fmt.targetExponent (totalExponent m e) = t at he
  obtain ⟨k, hk⟩ : ∃ k : ℕ, t - e = k := ⟨(t - e).toNat, by omega⟩
  set em := ExtendedMantissa.ofMantissaAndAccuracy m acc >>> k with hem
  have hfirst : shiftToTargetExponent fmt m e acc = (em, t) := by
    rw [shiftToTargetExponent, ht, shiftToExponent, hk, Int.toNat_natCast]
    exact congrArg (em, ·) (by omega)
  have hnearest : IsNearest (z / 2 ^ k) em.roundedMantissa := (htells.shiftRight k).isNearest
  refine ⟨em.roundedMantissa, by rwa [hk, zpow_natCast], ?_⟩
  have hmin : fmt.minExponent ≤ t := ht ▸ le_max_right _ _
  -- What is nearest to a number below a power of two is at most that power.
  have hle : em.roundedMantissa ≤ 2 ^ fmt.mantissaBits := by
    have hz : z < 2 ^ (m.log2 + 1) := by
      refine lt_of_lt_of_le htells.lt ?_
      rw [mantissa_ofMantissaAndAccuracy]
      exact_mod_cast Nat.lt_log2_self
    have hexp : m.log2 + 1 ≤ fmt.mantissaBits + k := by
      have htarget : totalExponent m e - fmt.mantissaBits ≤ t := ht ▸ le_max_left _ _
      rw [totalExponent] at htarget
      omega
    have hlt : z / 2 ^ k < 2 ^ fmt.mantissaBits := by
      rw [div_lt_iff₀ (by positivity), ← pow_add]
      exact lt_of_lt_of_le hz (pow_le_pow_right₀ one_le_two hexp)
    exact hnearest.le (by exact_mod_cast hlt.le)
  -- So the second shift does nothing, or it carries the one bit.
  rw [roundWithAccuracy, hfirst]
  rcases hle.lt_or_eq with hlt | heq
  · simp only [shiftToTargetExponent_of_lt hlt hmin, carried, hlt, ↓reduceIte]
  · have hne : ¬ (2 : ℕ) ^ fmt.mantissaBits = 0 := (Nat.two_pow_pos _).ne'
    have hne' : ¬ (2 : ℕ) ^ fmt.mantissaBitsWithoutImplicit = 0 := (Nat.two_pow_pos _).ne'
    simp only [heq, shiftToTargetExponent_two_pow hmin, carried, hne, hne', lt_irrefl,
      ↓reduceIte, ↓reduceDIte]

/-! ### Normal numbers of double precision -/

theorem toNat_one_append {w : ℕ} (v : BitVec w) : (1#1 ++ v).toNat = 2 ^ w + v.toNat := by
  rw [BitVec.toNat_append, ← Nat.shiftLeft_add_eq_or_of_lt v.isLt, Nat.shiftLeft_eq]
  simp

/-- A normal number is unpacked as it was packed. -/
theorem unpack_pack_normal (hpos : 0 < m) (hlo : 2 ^ 52 ≤ m) (hhi : m < 2 ^ 53) (helo : -1074 ≤ e)
    (hehi : e ≤ 971) :
    UnpackedFloat.unpack .binary64 (UnpackedFloat.pack .binary64 (.finite s m e hpos)) =
      .finite s m e hpos := by
  have hlog : m.log2 = 52 := (Nat.log2_eq_iff hpos.ne').2 ⟨hlo, hhi⟩
  obtain ⟨b, hb⟩ : ∃ b : ℕ, e + 1075 = b := ⟨(e + 1075).toNat, by omega⟩
  have hbias : (e + Format.binary64.exponentBias +
      Format.binary64.mantissaBitsWithoutImplicit).toNat = b := by
    change (e + (1023 : ℕ) + (52 : ℕ)).toNat = b
    omega
  have hmantissa : (1#1 ++ BitVec.ofNat 52 m).toNat = m := by
    rw [toNat_one_append, BitVec.toNat_ofNat]
    omega
  have hexponent : (BitVec.ofNat 11 b).toNat = b := by
    rw [BitVec.toNat_ofNat]
    omega
  -- The exponent is neither the one of subnormal numbers nor that of infinities.
  have hzero : BitVec.ofNat 11 b ≠ 0#11 := fun h => by
    have heq := congrArg BitVec.toNat h
    rw [hexponent, BitVec.toNat_ofNat] at heq
    omega
  have hones : BitVec.ofNat 11 b ≠ -1#11 := fun h => by
    have heq := congrArg BitVec.toNat h
    rw [hexponent] at heq
    change b = 2047 at heq
    omega
  rw [UnpackedFloat.pack]
  simp only [hlog, hbias]
  rw [if_neg (by omega), if_pos (by rfl), UnpackedFloat.unpack]
  simp only [unpackMantissa_packComponents, unpackExponent_packComponents,
    unpackSign_packComponents, Sign.ofBitVec_toBitVec]
  rw [if_neg hones, if_neg hzero]
  congr 1
  rw [hexponent]
  change (b : ℤ) - ((1023 : ℕ) + (52 : ℕ)) = e
  omega

/-- A number of double precision is normal and has this sign and this magnitude. -/
def Holds (x : Float) (s : Sign) (v : ℚ) : Prop :=
  ∃ (m : ℕ) (e : ℤ) (hpos : 0 < m), x.toModel.unpack = .finite s m e hpos ∧
    2 ^ 52 ≤ m ∧ m < 2 ^ 53 ∧ -1074 ≤ e ∧ e ≤ 971 ∧ v = m * 2 ^ e

/-- A number is close to another one, and the same if that has few enough bits. -/
structure Rounded (v u : ℚ) : Prop where
  /-- It is close. -/
  close : |u - v| ≤ v / 2 ^ 53
  /-- It is the same where it can be. -/
  exact : ∀ (n : ℕ) (k : ℤ), n < 2 ^ 53 → v = n * 2 ^ k → u = v

theorem holds_pack (hpos : 0 < m) (hlo : 2 ^ 52 ≤ m) (hhi : m < 2 ^ 53) (helo : -1074 ≤ e)
    (hehi : e ≤ 971) : Holds (.ofModel (.pack (.finite s m e hpos))) s (m * 2 ^ e) :=
  ⟨m, e, hpos, unpack_pack_normal hpos hlo hhi helo hehi, hlo, hhi, helo, hehi, rfl⟩

theorem Holds.neg {x : Float} {v : ℚ} (h : Holds x s v) : Holds (-x) (-s) v := by
  obtain ⟨m, e, hpos, hunpack, hlo, hhi, helo, hehi, rfl⟩ := h
  have hneg : -x = .ofModel (.pack (.finite (-s) m e hpos)) := by
    change Float.ofModel (.pack x.toModel.unpack.neg) = _
    rw [hunpack]
    rfl
  rw [hneg]
  exact holds_pack hpos hlo hhi helo hehi

theorem two_zpow_le_iff {k l : ℤ} : (2 : ℚ) ^ k ≤ 2 ^ l ↔ k ≤ l :=
  zpow_le_zpow_iff_right₀ one_lt_two

theorem two_zpow_lt_iff {k l : ℤ} : (2 : ℚ) ^ k < 2 ^ l ↔ k < l :=
  zpow_lt_zpow_iff_right₀ one_lt_two

theorem two_zpow_pos (k : ℤ) : (0 : ℚ) < 2 ^ k := zpow_pos two_pos k

/-- A number whose first bit is known lies between two powers of two. -/
theorem Tells.binade (htells : Tells (.ofMantissaAndAccuracy m acc) z) (hpos : 0 < m) :
    (2 : ℚ) ^ (m.log2 + e) ≤ z * 2 ^ e ∧ z * 2 ^ e < 2 ^ (m.log2 + 1 + e) := by
  have hmantissa : (ExtendedMantissa.ofMantissaAndAccuracy m acc).mantissa = m :=
    mantissa_ofMantissaAndAccuracy m acc
  have hle : (2 : ℚ) ^ m.log2 ≤ z := by
    refine le_trans ?_ (hmantissa ▸ htells.le)
    exact_mod_cast Nat.log2_self_le hpos.ne'
  have hlt : z < 2 ^ (m.log2 + 1) := by
    refine lt_of_lt_of_le (hmantissa ▸ htells.lt) ?_
    exact_mod_cast Nat.lt_log2_self
  have hpow := two_zpow_pos e
  constructor
  · rw [zpow_add₀ two_ne_zero, zpow_natCast]
    exact mul_le_mul_of_nonneg_right hle hpow.le
  · rw [zpow_add₀ two_ne_zero, ← Nat.cast_succ, zpow_natCast]
    exact mul_lt_mul_of_pos_right hlt hpow

/-- A mantissa with the bits of a normal number gives one, also if it is the next power of two. -/
theorem holds_carried (hlo : 2 ^ 52 ≤ m) (hhi : m ≤ 2 ^ 53) (helo : -1074 ≤ e) (hehi : e ≤ 970) :
    Holds (.ofModel (.pack (carried .binary64 s m e))) s (m * 2 ^ e) := by
  have hbits : Format.binary64.mantissaBits = 53 := rfl
  have hne : ¬ m = 0 := by omega
  simp only [carried, hne, ↓reduceDIte, hbits]
  rcases hhi.lt_or_eq with hlt | rfl
  · rw [if_pos hlt]
    exact holds_pack _ hlo hlt helo (by omega)
  · have hcarry := holds_pack (s := s) (Nat.two_pow_pos 52) le_rfl (by decide)
      (by omega : -1074 ≤ e + 1) (by omega)
    have hvalue : ((2 ^ 52 : ℕ) : ℚ) * 2 ^ (e + 1) = (2 ^ 53 : ℕ) * 2 ^ e := by
      rw [zpow_add_one₀ two_ne_zero]
      push_cast
      ring
    rwa [hvalue] at hcarry

/-- What is nearest with the bits of a normal number is close, and the same where it can be. -/
theorem rounded_of_isNearest {v : ℚ} {t : ℤ} {n : ℕ} (hnearest : IsNearest (v / 2 ^ t) n)
    (hv : (2 : ℚ) ^ (52 + t) ≤ v) : Rounded v (n * 2 ^ t) := by
  have hpos := two_zpow_pos t
  constructor
  · have heq : (n : ℚ) * 2 ^ t - v = -((v / 2 ^ t - n) * 2 ^ t) := by
      rw [sub_mul, div_mul_cancel₀ _ hpos.ne']
      ring
    have herror : |(n : ℚ) * 2 ^ t - v| ≤ 1 / 2 * 2 ^ t := by
      rw [heq, abs_neg, abs_mul, abs_of_pos hpos]
      exact mul_le_mul_of_nonneg_right hnearest.abs_sub_le_half hpos.le
    refine herror.trans ?_
    rw [zpow_add₀ two_ne_zero] at hv
    rw [le_div_iff₀ (by positivity)]
    norm_num at hv ⊢
    linarith
  · -- A number with so few bits is a multiple of the last bit, so it is nearest to itself.
    intro N k hN hvalue
    have hk : t ≤ k := by
      have hlt : (2 : ℚ) ^ (52 + t) < 2 ^ (53 + k) := by
        refine hv.trans_lt ?_
        rw [hvalue, zpow_add₀ two_ne_zero]
        refine mul_lt_mul_of_pos_right ?_ (two_zpow_pos k)
        exact_mod_cast hN
      have hexp := two_zpow_lt_iff.1 hlt
      omega
    obtain ⟨j, hj⟩ : ∃ j : ℕ, k - t = j := ⟨(k - t).toNat, by omega⟩
    have hinteger : v / 2 ^ t = (N * 2 ^ j : ℕ) := by
      rw [hvalue, mul_div_assoc, ← zpow_sub₀ two_ne_zero, hj, zpow_natCast]
      push_cast
      rfl
    rw [hinteger] at hnearest
    rw [hnearest.unique (isNearest_natCast _), ← hinteger, div_mul_cancel₀ _ hpos.ne']

/-- What is rounded well inside the range is a normal number. -/
theorem holds_roundWithAccuracy (htells : Tells (.ofMantissaAndAccuracy m acc) z) (hpos : 0 < m)
    (hlog : 52 ≤ m.log2) (hlo : -1000 ≤ m.log2 + e) (hhi : m.log2 + e ≤ 1022) :
    ∃ u, Holds (.ofModel (.pack (roundWithAccuracy .binary64 s m e acc))) s u ∧
      Rounded (z * 2 ^ e) u := by
  obtain ⟨hbelow, habove⟩ := htells.binade (e := e) hpos
  have htarget : Format.binary64.targetExponent (totalExponent m e) = m.log2 + e - 52 := by
    rw [Format.targetExponent, totalExponent]
    change max ((m.log2 : ℤ) + 1 + e - (53 : ℕ)) (-1074) = _
    omega
  obtain ⟨n, hnearest, hround⟩ :=
    @roundWithAccuracy_eq .binary64 s m e acc z htells (by omega)
  rw [htarget] at hnearest hround
  generalize ht : (m.log2 : ℤ) + e - 52 = t at hnearest hround
  have hpow := two_zpow_pos t
  have hquotient : z / 2 ^ (t - e) = z * 2 ^ e / 2 ^ t := by
    rw [zpow_sub₀ two_ne_zero, div_div_eq_mul_div]
  rw [hquotient] at hnearest
  rw [show (m.log2 : ℤ) + e = 52 + t by omega] at hbelow
  rw [show (m.log2 : ℤ) + 1 + e = 53 + t by omega] at habove
  have hnlo : 2 ^ 52 ≤ n := by
    refine hnearest.ge ((le_div_iff₀ hpow).2 ?_)
    rwa [zpow_add₀ two_ne_zero] at hbelow
  have hnhi : n ≤ 2 ^ 53 := by
    refine hnearest.le ((div_le_iff₀ hpow).2 ?_)
    rw [zpow_add₀ two_ne_zero] at habove
    exact habove.le
  exact ⟨n * 2 ^ t, hround ▸ holds_carried hnlo hnhi (by omega) (by omega),
    rounded_of_isNearest hnearest hbelow⟩

end Floating

end Phrasebook
