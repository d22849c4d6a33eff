import Mathlib.Algebra.Order.Field.Power
import Mathlib.Algebra.Order.Field.Rat
import Mathlib.Data.Int.ConditionallyCompleteOrder
import Mathlib.Data.Int.Interval
import Mathlib.Tactic.Linarith
import Mathlib.Tactic.Ring
import Phrasebook.Decimal.Shortest

/-!
# What shortest decimals stand for

The search for a shortest decimal compares natural numbers. They are the fraction, its bounds and
the multiples of a power of ten, all taken equally often, so the search finds the nearest multiple
among those that round to the fraction. It comes to an end because a multiple of a power of ten that
is no greater than a quarter of the last bit always does, and for single precision the first powers
that are tried are above that and the last ones below.

* `BinaryFraction.Attracts`: a number rounds to the fraction.
* `BinaryFraction.rounds_iff`, `BinaryFraction.nearest?_spec`: what is tested and what is found.
* `BinaryFraction.IsSingle`: the fractions of single precision.
* `BinaryFraction.IsSingle.exists_shortest`, `BinaryFraction.IsSingle.bounds`: the shortest decimal,
  and how small its digits and its exponent are.
-/

namespace Phrasebook

/-! ### Powers -/

theorem powerDenominator_pos {base : ℕ} (hbase : 0 < base) (e : ℤ) :
    0 < powerDenominator base e := Nat.pow_pos hbase

/-- A power is its numerator over its denominator. -/
theorem powerNumerator_eq {base : ℕ} (hbase : 0 < base) (e : ℤ) :
    (powerNumerator base e : ℚ) = base ^ e * powerDenominator base e := by
  have hne : (base : ℚ) ≠ 0 := by exact_mod_cast hbase.ne'
  change ((base ^ e.toNat : ℕ) : ℚ) = base ^ e * (base ^ (-e).toNat : ℕ)
  push_cast
  rw [← zpow_natCast, ← zpow_natCast, ← zpow_add₀ hne]
  congr 1
  omega

/-- Powers are compared by numerators and denominators. -/
theorem power_le_power_iff {a b : ℕ} (ha : 0 < a) (hb : 0 < b) {e f : ℤ} :
    (a : ℚ) ^ e ≤ b ^ f ↔ powerNumerator a e * powerDenominator b f ≤
      powerNumerator b f * powerDenominator a e := by
  have hapos : (0 : ℚ) < powerDenominator a e := by exact_mod_cast powerDenominator_pos ha e
  have hbpos : (0 : ℚ) < powerDenominator b f := by exact_mod_cast powerDenominator_pos hb f
  rw [← Nat.cast_le (α := ℚ), Nat.cast_mul, Nat.cast_mul, powerNumerator_eq ha,
    powerNumerator_eq hb, mul_assoc, mul_assoc,
    mul_comm (powerDenominator b f : ℚ), mul_le_mul_iff_left₀ (mul_pos hapos hbpos)]

namespace BinaryFraction

/-- The fraction as a rational number. -/
def value (x : BinaryFraction) : ℚ := x.mantissa * 2 ^ x.exponent

/-- A quarter of the last bit. -/
def quarter (x : BinaryFraction) : ℚ := 2 ^ (x.exponent - 2)

/-- The least number that may round to the fraction. -/
def least (x : BinaryFraction) : ℚ := x.lower * x.quarter

/-- The greatest number that may round to the fraction. -/
def greatest (x : BinaryFraction) : ℚ := x.upper * x.quarter

/-- A number rounds to the fraction. -/
def Attracts (x : BinaryFraction) (z : ℚ) : Prop :=
  if x.mantissa % 2 = 0 then x.least ≤ z ∧ z ≤ x.greatest else x.least < z ∧ z < x.greatest

variable {x : BinaryFraction} {z z' : ℚ} {e : ℤ} {d : ℕ}

theorem quarter_pos (x : BinaryFraction) : 0 < x.quarter := zpow_pos two_pos _

/-- The last bit has four quarters. -/
theorem last_eq (x : BinaryFraction) : (2 : ℚ) ^ x.exponent = 4 * x.quarter := by
  rw [quarter, zpow_sub₀ two_ne_zero]
  norm_num
  ring

theorem half_eq (x : BinaryFraction) : (2 : ℚ) ^ (x.exponent - 1) = 2 * x.quarter := by
  rw [zpow_sub_one₀ two_ne_zero, last_eq]
  ring

theorem value_eq (x : BinaryFraction) : x.value = x.quarters * x.quarter := by
  rw [value, quarters, quarter, zpow_sub₀ two_ne_zero]
  push_cast
  ring

theorem greatest_eq (x : BinaryFraction) : x.greatest = x.value + 2 * x.quarter := by
  rw [greatest, upper, value_eq]
  push_cast
  ring

theorem least_eq (hm : 0 < x.mantissa) :
    x.least = x.value - (if x.narrowBelow then 1 else 2) * x.quarter := by
  rw [least, lower, value_eq, Nat.cast_sub (by rw [quarters]; split <;> omega)]
  split <;> push_cast <;> ring

theorem Attracts.least_le (h : x.Attracts z) : x.least ≤ z := by
  rw [Attracts] at h
  split at h
  · exact h.1
  · exact h.1.le

theorem Attracts.le_greatest (h : x.Attracts z) : z ≤ x.greatest := by
  rw [Attracts] at h
  split at h
  · exact h.2
  · exact h.2.le

/-- What lies inside the bounds rounds to the fraction. -/
theorem attracts_of_lt (hleast : x.least < z) (hgreatest : z < x.greatest) : x.Attracts z := by
  rw [Attracts]
  split
  · exact ⟨hleast.le, hgreatest.le⟩
  · exact ⟨hleast, hgreatest⟩

/-- What is no farther away rounds to the fraction too, where both sides are alike. -/
theorem Attracts.of_le (hm : 0 < x.mantissa) (hwide : x.narrowBelow = false)
    (h : x.Attracts z) (hle : |z' - x.value| ≤ |z - x.value|) : x.Attracts z' := by
  rw [Attracts, greatest_eq, least_eq hm, hwide] at h ⊢
  simp only [Bool.false_eq_true, ↓reduceIte] at h ⊢
  split_ifs at h ⊢
  · have hz : |z - x.value| ≤ 2 * x.quarter := abs_le.2 ⟨by linarith, by linarith⟩
    obtain ⟨hlo, hhi⟩ := abs_le.1 (hle.trans hz)
    exact ⟨by linarith, by linarith⟩
  · have hz : |z - x.value| < 2 * x.quarter := abs_lt.2 ⟨by linarith, by linarith⟩
    obtain ⟨hlo, hhi⟩ := abs_lt.1 (hle.trans_lt hz)
    exact ⟨by linarith, by linarith⟩

/-- What the bounds are multiplied by to get natural numbers. -/
def scale (x : BinaryFraction) (e : ℤ) : ℚ :=
  powerDenominator 10 e * powerDenominator 2 (x.exponent - 2)

theorem scale_pos (x : BinaryFraction) (e : ℤ) : 0 < x.scale e := by
  have hten := powerDenominator_pos (by decide : 0 < 10) e
  have htwo := powerDenominator_pos (by decide : 0 < 2) (x.exponent - 2)
  exact mul_pos (by exact_mod_cast hten) (by exact_mod_cast htwo)

theorem tenScale_eq (x : BinaryFraction) (e : ℤ) : (x.tenScale e : ℚ) = 10 ^ e * x.scale e := by
  rw [tenScale, Nat.cast_mul, powerNumerator_eq (by decide), scale]
  push_cast
  ring

theorem quarterScale_eq (x : BinaryFraction) (e : ℤ) :
    (x.quarterScale e : ℚ) = x.quarter * x.scale e := by
  rw [quarterScale, Nat.cast_mul, powerNumerator_eq (by decide), scale, quarter]
  push_cast
  ring

theorem tenScale_pos (x : BinaryFraction) (e : ℤ) : 0 < x.tenScale e := by
  have hpos : (0 : ℚ) < x.tenScale e := by
    rw [tenScale_eq]
    exact mul_pos (zpow_pos (by norm_num) e) (x.scale_pos e)
  exact_mod_cast hpos

/-! ### What is compared -/

theorem multiple_scaled (x : BinaryFraction) (e : ℤ) (n : ℕ) :
    ((n * x.tenScale e : ℕ) : ℚ) = n * 10 ^ e * x.scale e := by
  rw [Nat.cast_mul, tenScale_eq, mul_assoc]

theorem value_scaled (x : BinaryFraction) (e : ℤ) :
    ((x.quarters * x.quarterScale e : ℕ) : ℚ) = x.value * x.scale e := by
  rw [Nat.cast_mul, quarterScale_eq, value_eq, mul_assoc]

theorem least_scaled (x : BinaryFraction) (e : ℤ) :
    ((x.lower * x.quarterScale e : ℕ) : ℚ) = x.least * x.scale e := by
  rw [Nat.cast_mul, quarterScale_eq, least, mul_assoc]

theorem greatest_scaled (x : BinaryFraction) (e : ℤ) :
    ((x.upper * x.quarterScale e : ℕ) : ℚ) = x.greatest * x.scale e := by
  rw [Nat.cast_mul, quarterScale_eq, greatest, mul_assoc]

/-- The test is whether the decimal rounds to the fraction. -/
theorem rounds_iff : x.rounds e d = true ↔ x.Attracts (d * 10 ^ e) := by
  have hscale := x.scale_pos e
  rw [rounds, Attracts]
  split
  · rw [Bool.and_eq_true, decide_eq_true_eq, decide_eq_true_eq, ← Nat.cast_le (α := ℚ),
      ← Nat.cast_le (α := ℚ), multiple_scaled, least_scaled, greatest_scaled,
      mul_le_mul_iff_left₀ hscale, mul_le_mul_iff_left₀ hscale]
  · rw [Bool.and_eq_true, decide_eq_true_eq, decide_eq_true_eq, ← Nat.cast_lt (α := ℚ),
      ← Nat.cast_lt (α := ℚ), multiple_scaled, least_scaled, greatest_scaled,
      mul_lt_mul_iff_left₀ hscale, mul_lt_mul_iff_left₀ hscale]

/-- The multiple of a power of ten below the fraction and the one above it. -/
theorem between (x : BinaryFraction) (e : ℤ) :
    ((x.quarters * x.quarterScale e / x.tenScale e : ℕ) : ℚ) * 10 ^ e ≤ x.value ∧
      x.value < ((x.quarters * x.quarterScale e / x.tenScale e + 1 : ℕ) : ℚ) * 10 ^ e := by
  have hscale := x.scale_pos e
  have hle := Nat.div_mul_le_self (x.quarters * x.quarterScale e) (x.tenScale e)
  have hlt := Nat.lt_div_mul_add (a := x.quarters * x.quarterScale e) (x.tenScale_pos e)
  rw [← Nat.succ_mul] at hlt
  rw [← Nat.cast_le (α := ℚ), multiple_scaled, value_scaled, mul_le_mul_iff_left₀ hscale] at hle
  rw [← Nat.cast_lt (α := ℚ), multiple_scaled, value_scaled, mul_lt_mul_iff_left₀ hscale] at hlt
  exact ⟨hle, hlt⟩

/-- Which of two multiples is nearer is seen from natural numbers. -/
theorem nearer_iff {b : ℕ} (hbelow : b * 10 ^ e ≤ x.value)
    (habove : x.value ≤ (b + 1 : ℕ) * 10 ^ e) :
    (x.quarters * x.quarterScale e - b * x.tenScale e ≤
        (b + 1) * x.tenScale e - x.quarters * x.quarterScale e ↔
      x.value - b * 10 ^ e ≤ (b + 1 : ℕ) * 10 ^ e - x.value) ∧
    ((b + 1) * x.tenScale e - x.quarters * x.quarterScale e ≤
        x.quarters * x.quarterScale e - b * x.tenScale e ↔
      (b + 1 : ℕ) * 10 ^ e - x.value ≤ x.value - b * 10 ^ e) := by
  have hscale := x.scale_pos e
  have hleast : b * x.tenScale e ≤ x.quarters * x.quarterScale e := by
    rw [← Nat.cast_le (α := ℚ), multiple_scaled, value_scaled]
    exact mul_le_mul_of_nonneg_right hbelow hscale.le
  have hgreatest : x.quarters * x.quarterScale e ≤ (b + 1) * x.tenScale e := by
    rw [← Nat.cast_le (α := ℚ), multiple_scaled, value_scaled]
    exact mul_le_mul_of_nonneg_right habove hscale.le
  rw [← Nat.cast_le (α := ℚ), ← Nat.cast_le (α := ℚ), Nat.cast_sub hleast,
    Nat.cast_sub hgreatest, multiple_scaled, multiple_scaled, value_scaled, ← sub_mul, ← sub_mul,
    mul_le_mul_iff_left₀ hscale, mul_le_mul_iff_left₀ hscale]
  exact ⟨Iff.rfl, Iff.rfl⟩

/-- What is found rounds to the fraction, and no multiple is nearer where both sides are alike. -/
theorem nearest?_spec (hm : 0 < x.mantissa) (h : x.nearest? e = some d) :
    x.Attracts (d * 10 ^ e) ∧
      (x.narrowBelow = false → |d * 10 ^ e - x.value| ≤ 10 ^ e / 2) := by
  obtain ⟨hbelow, habove⟩ := x.between e
  rw [nearest?] at h
  generalize x.quarters * x.quarterScale e / x.tenScale e = b at h hbelow habove
  have hsucc : ((b + 1 : ℕ) : ℚ) * 10 ^ e = b * 10 ^ e + 10 ^ e := by
    push_cast
    ring
  have hbelowabs : |(b : ℚ) * 10 ^ e - x.value| = x.value - b * 10 ^ e := by
    rw [abs_sub_comm, abs_of_nonneg (by linarith)]
  have haboveabs : |((b + 1 : ℕ) : ℚ) * 10 ^ e - x.value| =
      ((b + 1 : ℕ) : ℚ) * 10 ^ e - x.value := abs_of_nonneg (by linarith)
  cases hleft : x.rounds e b <;> cases hright : x.rounds e (b + 1) <;>
    simp only [hleft, hright] at h
  · cases h
  · obtain rfl := Option.some.inj h
    refine ⟨rounds_iff.1 hright, fun hwide => not_lt.1 fun hfar => ?_⟩
    -- Were the multiple below nearer, then it would round to the fraction too.
    have hattracts : x.Attracts (b * 10 ^ e) := (rounds_iff.1 hright).of_le hm hwide (by linarith)
    rw [rounds_iff.2 hattracts] at hleft
    cases hleft
  · obtain rfl := Option.some.inj h
    refine ⟨rounds_iff.1 hleft, fun hwide => not_lt.1 fun hfar => ?_⟩
    have hattracts : x.Attracts ((b + 1 : ℕ) * 10 ^ e) :=
      (rounds_iff.1 hleft).of_le hm hwide (by linarith)
    rw [rounds_iff.2 hattracts] at hright
    cases hright
  · -- Both multiples round to the fraction, and the nearer one is taken.
    obtain ⟨hnearer, hnearer'⟩ := nearer_iff hbelow habove.le
    have hpick : d = b ∧ x.value - b * 10 ^ e ≤ (b + 1 : ℕ) * 10 ^ e - x.value ∨
        d = b + 1 ∧ (b + 1 : ℕ) * 10 ^ e - x.value ≤ x.value - b * 10 ^ e := by
      rw [← hnearer, ← hnearer']
      split_ifs at h <;> cases h <;> omega
    rcases hpick with ⟨rfl, hle⟩ | ⟨rfl, hle⟩
    · exact ⟨rounds_iff.1 hleft, fun _ => by linarith⟩
    · exact ⟨rounds_iff.1 hright, fun _ => by linarith⟩

/-- A power of ten that is no greater than a quarter of the last bit has a multiple that rounds to
the fraction. -/
theorem isSome_nearest? (hm : 0 < x.mantissa) (h : 10 ^ e ≤ x.quarter) :
    (x.nearest? e).isSome = true := by
  obtain ⟨hbelow, habove⟩ := x.between e
  rw [nearest?]
  generalize x.quarters * x.quarterScale e / x.tenScale e = b at hbelow habove
  have hround : x.rounds e b = true := by
    rw [rounds_iff]
    push_cast at habove
    refine attracts_of_lt ?_ ?_
    · rw [least_eq hm]
      split <;> linarith [x.quarter_pos]
    · rw [greatest_eq]
      linarith [x.quarter_pos]
  cases x.rounds e (b + 1) <;> simp only [hround]
  · rfl
  · split_ifs <;> rfl

/-! ### Single precision -/

/-- A fraction of single precision. -/
structure IsSingle (x : BinaryFraction) : Prop where
  /-- It is not zero. -/
  mantissa_pos : 0 < x.mantissa
  /-- The mantissa has at most 24 bits. -/
  mantissa_lt : x.mantissa < 2 ^ 24
  /-- The exponent is in the range. -/
  exponent_ge : -149 ≤ x.exponent
  /-- The exponent is in the range. -/
  exponent_le : x.exponent ≤ 104
  /-- Only at the least exponent the mantissa may be shorter. -/
  normal : x.exponent = -149 ∨ 2 ^ 23 ≤ x.mantissa
  /-- Below a power of two the fractions are closer to each other. -/
  narrowBelow_iff : x.narrowBelow = true ↔ x.mantissa = 2 ^ 23 ∧ -149 < x.exponent

/-- The first power of ten that is tried is near the fraction. -/
theorem magnitude_bounds : ∀ s ∈ Finset.Icc (-148 : ℤ) 128,
    powerNumerator 10 (s * 30103 / 100000) * powerDenominator 2 (s + 1) ≤
        powerNumerator 2 (s + 1) * powerDenominator 10 (s * 30103 / 100000) ∧
      ¬ powerNumerator 10 (s * 30103 / 100000 + 2) * powerDenominator 2 s ≤
        powerNumerator 2 s * powerDenominator 10 (s * 30103 / 100000 + 2) := by
  decide +kernel

variable (hx : x.IsSingle)

include hx

theorem IsSingle.log2_lt : x.mantissa.log2 < 24 :=
  (Nat.log2_lt hx.mantissa_pos.ne').2 hx.mantissa_lt

/-- The least power of ten that is tried is low enough, and the first one is high. -/
theorem IsSingle.magnitude_bounds :
    (10 : ℚ) ^ (x.magnitude - 19) ≤ x.quarter ∧ x.quarter < 10 ^ (x.magnitude + 1) := by
  have hlog := hx.log2_lt
  have hlo := hx.exponent_ge
  have hhi := hx.exponent_le
  obtain ⟨s, hs⟩ : ∃ s : ℤ, x.mantissa.log2 + 1 + x.exponent = s := ⟨_, rfl⟩
  obtain ⟨hle, hlt⟩ := BinaryFraction.magnitude_bounds s (Finset.mem_Icc.2 (by omega))
  rw [← power_le_power_iff (by decide) (by decide)] at hle hlt
  rw [magnitude, hs]
  generalize s * 30103 / 100000 = f at hle hlt
  constructor
  · have heighteen : (2 : ℚ) ^ (54 : ℤ) ≤ 10 ^ (18 : ℤ) := by norm_num
    calc (10 : ℚ) ^ (f + 1 - 19) = 10 ^ f / 10 ^ (18 : ℤ) := by
          rw [← zpow_sub₀ (by norm_num)]
          congr 1
          omega
      _ ≤ 2 ^ (s + 1) / 2 ^ (54 : ℤ) :=
          div_le_div₀ (zpow_pos two_pos _).le (by exact_mod_cast hle) (zpow_pos two_pos _)
            heighteen
      _ = 2 ^ (s + 1 - 54) := (zpow_sub₀ two_ne_zero _ _).symm
      _ ≤ x.quarter := zpow_le_zpow_right₀ one_le_two (by omega)
  · calc x.quarter ≤ 2 ^ s := zpow_le_zpow_right₀ one_le_two (by omega)
      _ < 10 ^ (f + 2) := by exact_mod_cast not_le.1 hlt
      _ = 10 ^ (f + 1 + 1) := by rw [add_assoc]; rfl

omit hx in
/-- The first hit of a search in order. -/
theorem exists_first {α : Type} {f : ℕ → Option α} {n i : ℕ} (hi : i < n)
    (hf : (f i).isSome = true) :
    ∃ j a, j < n ∧ f j = some a ∧ (List.range n).findSome? f = some a ∧ ∀ k < j, f k = none := by
  obtain ⟨a, hfind⟩ : ∃ a, (List.range n).findSome? f = some a := by
    refine Option.isSome_iff_exists.1 ?_
    rw [List.findSome?_isSome_iff]
    exact ⟨i, List.mem_range.2 hi, hf⟩
  obtain ⟨front, j, back, hrange, hj, hfront⟩ := List.findSome?_eq_some_iff.1 hfind
  have hmem : j ∈ List.range n := by
    rw [hrange]
    exact List.mem_append_right _ List.mem_cons_self
  refine ⟨j, a, List.mem_range.1 hmem, hj, hfind, fun k hk => ?_⟩
  have hkmem : k ∈ front ++ j :: back :=
    hrange ▸ List.mem_range.2 (hk.trans (List.mem_range.1 hmem))
  rcases List.mem_append.1 hkmem with hk' | hk'
  · exact hfront k hk'
  · have hsorted := List.pairwise_lt_range (n := n)
    rw [hrange] at hsorted
    rcases List.mem_cons.1 hk' with rfl | hk'
    · exact absurd hk (lt_irrefl _)
    · exact absurd hk
        (not_lt.2 (List.rel_of_pairwise_cons (List.pairwise_append.1 hsorted).2.1 hk').le)

/-- The shortest decimal rounds to the fraction. It is the multiple of a power of ten that was
found, and the next higher power of ten is greater than a quarter of the last bit. -/
theorem IsSingle.exists_shortest :
    ∃ d e, x.shortest = ⟨d, e⟩ ∧ x.nearest? e = some d ∧ x.quarter < 10 ^ (e + 1) := by
  obtain ⟨hlow, hhigh⟩ := hx.magnitude_bounds
  have hlast : ((x.nearest? (x.magnitude - (19 : ℕ))).map fun digits =>
      (⟨digits, x.magnitude - (19 : ℕ)⟩ : Decimal)).isSome = true := by
    rw [Option.isSome_map]
    exact isSome_nearest? hx.mantissa_pos hlow
  obtain ⟨i, found, hi, hfound, hfind, hfront⟩ := exists_first (f := fun i : ℕ =>
    (x.nearest? (x.magnitude - i)).map fun digits => (⟨digits, x.magnitude - i⟩ : Decimal))
    (by decide : 19 < 20) hlast
  obtain ⟨d, hd, rfl⟩ := Option.map_eq_some_iff.1 hfound
  refine ⟨d, _, ?_, hd, ?_⟩
  · rw [shortest, hfind]
    rfl
  · rcases i with _ | i
    · simpa using hhigh
    · -- The power before was no hit, so it is not as small as a quarter of the last bit.
      have hnone := hfront i (Nat.lt_succ_self i)
      rw [Option.map_eq_none_iff] at hnone
      refine not_le.1 fun hle => ?_
      rw [show x.magnitude - ((i + 1 : ℕ) : ℤ) + 1 = x.magnitude - i by push_cast; ring] at hle
      have hsome := isSome_nearest? hx.mantissa_pos hle
      rw [hnone] at hsome
      cases hsome

theorem IsSingle.least_pos : 0 < x.least := by
  have hone : (1 : ℚ) ≤ x.mantissa := by exact_mod_cast hx.mantissa_pos
  have hquarter := x.quarter_pos
  rw [least_eq hx.mantissa_pos, value_eq, quarters]
  push_cast
  split <;> nlinarith

/-- A single fraction has few bits, so what rounds to it is not much greater than the last. -/
theorem IsSingle.greatest_lt : x.greatest < 2 ^ 26 * x.quarter := by
  have hlt : x.upper < 2 ^ 26 := by
    have := hx.mantissa_lt
    rw [upper, quarters]
    omega
  exact mul_lt_mul_of_pos_right (by exact_mod_cast hlt) x.quarter_pos

/-- The digits and the exponent of a shortest decimal are small. -/
theorem IsSingle.bounds (hattracts : x.Attracts (d * 10 ^ e)) (hnext : x.quarter < 10 ^ (e + 1)) :
    0 < d ∧ d < 2 ^ 30 ∧ -46 ≤ e ∧ e ≤ 38 := by
  have hten : (0 : ℚ) < 10 ^ e := zpow_pos (by norm_num) e
  have hpos : 0 < d := by
    refine Nat.pos_of_ne_zero fun hzero => ?_
    have hle := hattracts.least_le
    rw [hzero, Nat.cast_zero, zero_mul] at hle
    exact absurd hx.least_pos (not_lt.2 hle)
  have hupper : (d : ℚ) * 10 ^ e < 2 ^ 26 * x.quarter :=
    hattracts.le_greatest.trans_lt hx.greatest_lt
  have hdigits : (d : ℚ) < 2 ^ 30 := by
    rw [zpow_add_one₀ (by norm_num)] at hnext
    nlinarith
  have hone : (1 : ℚ) ≤ d := by exact_mod_cast hpos
  refine ⟨hpos, by exact_mod_cast hdigits, ?_, ?_⟩
  · have hlt : (10 : ℚ) ^ (-46 : ℤ) < 10 ^ (e + 1) := by
      refine lt_of_le_of_lt ?_ hnext
      calc (10 : ℚ) ^ (-46 : ℤ) ≤ 2 ^ (-151 : ℤ) := by norm_num
        _ ≤ x.quarter := zpow_le_zpow_right₀ one_le_two (by have := hx.exponent_ge; omega)
    have := (zpow_lt_zpow_iff_right₀ (by norm_num)).1 hlt
    omega
  · have hlt : (10 : ℚ) ^ e < 10 ^ (39 : ℤ) := by
      calc (10 : ℚ) ^ e ≤ d * 10 ^ e := by nlinarith
        _ < 2 ^ 26 * x.quarter := hupper
        _ ≤ 2 ^ (26 : ℤ) * 2 ^ (102 : ℤ) := by
          refine mul_le_mul_of_nonneg_left ?_ (by norm_num)
          exact zpow_le_zpow_right₀ one_le_two (by have := hx.exponent_le; omega)
        _ < 10 ^ (39 : ℤ) := by norm_num
    have := (zpow_lt_zpow_iff_right₀ (by norm_num)).1 hlt
    omega

end BinaryFraction

end Phrasebook
