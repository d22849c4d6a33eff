import Mathlib.Tactic.NormNum
import Mathlib.Tactic.Positivity
import Mathlib.Tactic.Ring
import Phrasebook.Decimal.Numeral
import Phrasebook.Proofs.Json.Numeral

/-!
# Numerals of decimals

The numeral of a decimal has its digits, with a point or an exponent that makes them count as they
do in the decimal. Only where they all stand before the point, zeros are filled in, and one more
stands behind the point; the numeral then stands for the digits with these zeros, divided by ten.

* `Numeral.value?_of_digits`: what a numeral with a point or an exponent stands for.
* `Numeral.Writes`, `Numeral.writes_ofDecimal`: how a decimal is written.
-/

namespace Phrasebook

namespace Numeral

/-! ### What a numeral stands for -/

variable {n : Numeral} {digits : ℕ}

/-- A numeral with a point or an exponent stands for its digits, scaled by a power of ten. -/
theorem value?_of_digits (hdigits : Nat.ofDigitChars 10 (n.whole ++ n.fraction) 0 = digits)
    (hlt : digits < Nat.pow 2 64) (hreal : ¬ (n.fraction.isEmpty ∧ n.exponent.isNone))
    (hexp : (n.exponent.getD 0).natAbs < 1000) :
    n.value? = (scale? (Float.ofNat digits) (n.exponent.getD 0 - n.fraction.length)).map
      fun x => .real (n.signed x) := by
  rw [Nat.ofDigitChars_append] at hdigits
  -- All digits fit, so none are dropped.
  have hwhole : gather 0 n.whole = (Nat.ofDigitChars 10 n.whole 0, []) :=
    gather_eq (Nat.lt_of_le_of_lt (le_ofDigitChars n.fraction) (hdigits ▸ hlt))
  have hfraction : gather (Nat.ofDigitChars 10 n.whole 0) n.fraction = (digits, []) := by
    rw [gather_eq (hdigits ▸ hlt), hdigits]
  have hmax : ¬ maxExponent < n.exponent.getD 0 := by
    rw [maxExponent]
    omega
  have hmin : ¬ n.exponent.getD 0 < -maxExponent := by
    rw [maxExponent]
    omega
  have hsum : (List.length ([] : List Char) : ℤ) -
      (n.fraction.length - List.length ([] : List Char) : ℕ) + n.exponent.getD 0 =
        n.exponent.getD 0 - n.fraction.length := by
    simp only [List.length_nil]
    omega
  simp only [value?, hwhole, hfraction, List.isEmpty_nil, true_and, hreal, hmax, hmin,
    false_and, or_self, ↓reduceIte, hsum]

/-! ### The numeral of a decimal -/

theorem head_toDigits_ne_zero (hpos : 0 < digits) :
    (Nat.toDigits 10 digits).head? ≠ some '0' := by
  intro h
  have hvalue := @Nat.ofDigitChars_ten_toDigits digits
  rw [toDigits_eq_zero h] at hvalue
  exact absurd hvalue (by change ¬ 0 = digits; omega)

/-- How many digits a number has. -/
theorem length_toDigits_bounds (hpos : 0 < digits) :
    10 ^ ((Nat.toDigits 10 digits).length - 1) ≤ digits ∧
      digits < 10 ^ (Nat.toDigits 10 digits).length := by
  have hlength := Nat.length_toDigits_pos (b := 10) (n := digits)
  refine ⟨?_, (Nat.length_toDigits_le_iff (by decide) hlength).1 le_rfl⟩
  by_contra hlt
  rcases Nat.eq_zero_or_pos ((Nat.toDigits 10 digits).length - 1) with hzero | hpos'
  · rw [hzero] at hlt
    omega
  · have := (Nat.length_toDigits_le_iff (by decide) hpos').2 (not_le.1 hlt)
    omega

/-- Digits of which the first one is not zero can be parted anywhere behind it. -/
theorem proper_parted {ds : List Char} {i : ℕ} (negative : Bool) (exponent : Option ℤ)
    (hds : ∀ c ∈ ds, c.isDigit = true) (hhead : ds.head? ≠ some '0') (hi : 0 < i)
    (hne : ds ≠ []) : Proper ⟨negative, ds.take i, ds.drop i, exponent⟩ where
  whole_ne_nil := by
    rw [ne_eq, List.take_eq_nil_iff]
    exact not_or.2 ⟨hi.ne', hne⟩
  isDigit_whole c hc := hds c (List.mem_of_mem_take hc)
  eq_zero h := by
    rw [List.head?_take, if_neg hi.ne'] at h
    exact absurd h hhead
  isDigit_fraction c hc := hds c (List.mem_of_mem_drop hc)

/-- A numeral is written like this decimal. -/
structure Writes (n : Numeral) (negative : Bool) (digits : ℕ) (e : ℤ) : Prop where
  /-- Its digits are in order. -/
  proper : n.Proper
  /-- It has the sign. -/
  negative_eq : n.negative = negative
  /-- It has a point or an exponent. -/
  real : ¬ (n.fraction.isEmpty ∧ n.exponent.isNone)
  /-- An exponent is small. -/
  exponent_lt : (n.exponent.getD 0).natAbs < 1000
  /-- Its digits are those of the decimal, or there is a zero behind the point. -/
  value : Nat.ofDigitChars 10 (n.whole ++ n.fraction) 0 = digits ∧
      n.exponent.getD 0 - n.fraction.length = e ∨
    Nat.ofDigitChars 10 (n.whole ++ n.fraction) 0 = digits * 10 ^ (e.toNat + 1) ∧
      n.exponent.getD 0 - n.fraction.length = -1 ∧ 0 ≤ e ∧ digits * 10 ^ e.toNat < 10 ^ 13

/-- The numeral of a decimal is written like it. -/
theorem writes_ofDecimal {style : NumeralStyle} (negative : Bool) {e : ℤ} (hpos : 0 < digits)
    (hlt : digits < 2 ^ 30) (hlo : -46 ≤ e) (hhi : e ≤ 38) (hstyle : style.highest ≤ 12) :
    (ofDecimal style negative ⟨digits, e⟩).Writes negative digits e := by
  have hhead := head_toDigits_ne_zero hpos
  have hisDigit : ∀ c ∈ Nat.toDigits 10 digits, c.isDigit = true := fun c hc =>
    Nat.isDigit_of_mem_toDigits (by decide) (by decide) hc
  have hvalue := @Nat.ofDigitChars_ten_toDigits digits
  have hne := @Nat.toDigits_ne_nil digits 10
  have hlength := Nat.length_toDigits_pos (b := 10) (n := digits)
  have hshort : (Nat.toDigits 10 digits).length ≤ 10 :=
    (Nat.length_toDigits_le_iff (by decide) (by decide)).2 (hlt.trans (by norm_num))
  have hupper := (length_toDigits_bounds hpos).2
  simp only [ofDecimal]
  generalize Nat.toDigits 10 digits = ds at *
  obtain ⟨first, hfirst⟩ : ∃ first : ℤ, e + (ds.length - 1 : ℕ) = first := ⟨_, rfl⟩
  rw [hfirst]
  have hzero : ∀ c ∈ ['0'], c.isDigit = true := List.all_eq_true.1 (by decide)
  split_ifs with hpositional hbelow hwhole
  · -- All digits stand behind the point, after some zeros.
    have hfraction : ((List.replicate (-first - 1).toNat '0' ++ ds).length : ℤ) = -e := by
      rw [List.length_append, List.length_replicate]
      omega
    refine ⟨⟨List.cons_ne_nil _ _, hzero, fun _ => rfl, fun c hc => ?_⟩, rfl, ?_,
      (by decide : (0 : ℤ).natAbs < 1000), .inl ⟨?_, ?_⟩⟩
    · rcases List.mem_append.1 hc with hc | hc
      · rw [List.eq_of_mem_replicate hc]
        rfl
      · exact hisDigit c hc
    · rw [List.isEmpty_iff, List.append_eq_nil_iff]
      exact fun h => hne h.1.2
    · rw [Nat.ofDigitChars_append, Nat.ofDigitChars_append, Nat.ofDigitChars_replicate_zero]
      exact hvalue
    · change 0 - _ = e
      rw [hfraction]
      omega
  · -- There are no digits behind the point.
    have hdrop := List.isEmpty_iff.1 hwhole
    have htake := List.take_of_length_le (List.drop_eq_nil_iff.1 hdrop)
    have hle := List.drop_eq_nil_iff.1 hdrop
    rw [List.length_append, List.length_replicate] at hle
    have he : 0 ≤ e := by omega
    rw [htake]
    refine ⟨⟨by simp [hne], fun c hc => ?_, fun h => ?_, hzero⟩, rfl,
      (fun h => by cases h.1), (by decide : (0 : ℤ).natAbs < 1000), .inr ⟨?_, rfl, he, ?_⟩⟩
    · rcases List.mem_append.1 hc with hc | hc
      · exact hisDigit c hc
      · rw [List.eq_of_mem_replicate hc]
        rfl
    · rw [List.head?_append_of_ne_nil _ hne] at h
      exact absurd h hhead
    · rw [Nat.ofDigitChars_append, Nat.ofDigitChars_append, hvalue,
        Nat.ofDigitChars_replicate_zero, pow_succ]
      change 10 * (10 ^ e.toNat * digits) + 0 = _
      ring
    · calc digits * 10 ^ e.toNat < 10 ^ ds.length * 10 ^ e.toNat :=
            Nat.mul_lt_mul_of_pos_right hupper (by positivity)
        _ = 10 ^ (ds.length + e.toNat) := (pow_add _ _ _).symm
        _ ≤ 10 ^ 13 := Nat.pow_le_pow_right (by decide) (by omega)
  · -- The point stands between the digits.
    have hnonempty : List.drop (first.toNat + 1) (ds ++ List.replicate e.toNat '0') ≠ [] :=
      fun h => hwhole (by rw [h]; rfl)
    have hlt' := List.drop_eq_nil_iff.not.1 hnonempty
    rw [List.length_append, List.length_replicate] at hlt'
    have he : e.toNat = 0 := by omega
    rw [he, List.replicate_zero, List.append_nil] at hnonempty ⊢
    refine ⟨proper_parted negative none hisDigit hhead (Nat.succ_pos _) hne, rfl, ?_,
      (by decide : (0 : ℤ).natAbs < 1000), .inl ⟨by rw [List.take_append_drop]; exact hvalue, ?_⟩⟩
    · rw [List.isEmpty_iff]
      exact fun h => hnonempty h.1
    · change 0 - ((ds.drop (first.toNat + 1)).length : ℤ) = e
      rw [List.length_drop]
      omega
  · -- There is an exponent, and the point stands behind the first digit.
    refine ⟨proper_parted negative (some first) hisDigit hhead Nat.one_pos hne, rfl,
      (fun h => by cases h.2), ?_, .inl ⟨by rw [List.take_append_drop]; exact hvalue, ?_⟩⟩
    · change first.natAbs < 1000
      omega
    · change first - ((ds.drop 1).length : ℤ) = e
      rw [List.length_drop]
      omega

end Numeral

end Phrasebook
