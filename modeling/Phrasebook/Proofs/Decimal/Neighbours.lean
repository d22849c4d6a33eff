import Mathlib.Tactic.Linarith
import Mathlib.Tactic.LinearCombination
import Mathlib.Tactic.Positivity
import Mathlib.Tactic.Ring

/-!
# Fractions around a number

Two fractions of determinant one enclose a number. Every other fraction is a combination of them,
and one with a denominator that is less than the sum of theirs counts only one of them positively,
so it is at least as far away from the number as that one is, in proportion to the denominators.

* `Neighbours.close`: the fractions around a number, moved towards it.
* `Neighbours.Encloses`: what holds of them, and is kept when they are moved.
* `Neighbours.Encloses.gap`, `Neighbours.Encloses.gap_of_ne`: how far away other fractions are.
-/

namespace Phrasebook

/-- Two fractions, of which one is below a number and one above it. -/
structure Neighbours where
  /-- The numerator of the lower fraction. -/
  lowNum : ℕ
  /-- The denominator of the lower fraction. -/
  lowDen : ℕ
  /-- The numerator of the upper fraction. -/
  highNum : ℕ
  /-- The denominator of the upper fraction. -/
  highDen : ℕ
  deriving DecidableEq

namespace Neighbours

/-- How far the number `a / c` is above the lower fraction. -/
def above (f : Neighbours) (a c : ℕ) : ℕ := f.lowDen * a - f.lowNum * c

/-- How far it is below the upper fraction. -/
def below (f : Neighbours) (a c : ℕ) : ℕ := f.highNum * c - f.highDen * a

/-- Moves the lower fraction towards the upper one, as far as it stays below the number and its
denominator below the limit. -/
def raise (f : Neighbours) (a c limit : ℕ) : Neighbours :=
  let k := min (f.above a c / f.below a c) ((limit - 1 - f.lowDen) / f.highDen)
  { f with lowNum := f.lowNum + k * f.highNum, lowDen := f.lowDen + k * f.highDen }

/-- Moves the upper fraction towards the lower one. -/
def lower (f : Neighbours) (a c limit : ℕ) : Neighbours :=
  let k := min (f.below a c / f.above a c) ((limit - 1 - f.highDen) / f.lowDen)
  { f with highNum := f.highNum + k * f.lowNum, highDen := f.highDen + k * f.lowDen }

/-- Moves the fractions towards the number until no fraction between them has a denominator below
the limit. -/
def close (a c limit : ℕ) : ℕ → Neighbours → Neighbours
  | 0, f => f
  | fuel + 1, f =>
    if limit ≤ f.lowDen + f.highDen then f
    else if f.below a c ≤ f.above a c then close a c limit fuel (f.raise a c limit)
    else close a c limit fuel (f.lower a c limit)

/-- The whole numbers around `a / c`. -/
def whole (a c : ℕ) : Neighbours := ⟨a / c, 1, a / c + 1, 1⟩

/-- The fractions are around the number, and their determinant is one. -/
structure Encloses (f : Neighbours) (a c : ℕ) : Prop where
  /-- One is below. -/
  low : f.lowNum * c ≤ f.lowDen * a
  /-- One is above. -/
  high : f.highDen * a ≤ f.highNum * c
  /-- Every pair of numbers is a combination of them. -/
  next : f.highNum * f.lowDen = f.lowNum * f.highDen + 1

variable {f : Neighbours} {a c limit : ℕ}

theorem encloses_whole (hc : 0 < c) : (whole a c).Encloses a c where
  low := by
    rw [whole, one_mul]
    exact Nat.div_mul_le_self a c
  high := by
    rw [whole, one_mul]
    exact (Nat.lt_mul_of_div_lt (Nat.lt_succ_self _) hc).le
  next := rfl

theorem Encloses.raise (h : f.Encloses a c) : (f.raise a c limit).Encloses a c := by
  have hlow : f.lowNum * c + f.above a c = f.lowDen * a := Nat.add_sub_cancel' h.low
  have hhigh : f.highDen * a + f.below a c = f.highNum * c := Nat.add_sub_cancel' h.high
  obtain ⟨k, hk⟩ : ∃ k, min (f.above a c / f.below a c) ((limit - 1 - f.lowDen) / f.highDen) = k :=
    ⟨_, rfl⟩
  have hle : k * f.below a c ≤ f.above a c :=
    (Nat.mul_le_mul_right _ (hk ▸ min_le_left _ _)).trans (Nat.div_mul_le_self _ _)
  rw [Neighbours.raise, hk]
  refine ⟨?_, h.high, ?_⟩
  · calc (f.lowNum + k * f.highNum) * c = f.lowNum * c + k * (f.highNum * c) := by ring
      _ = f.lowNum * c + k * (f.highDen * a) + k * f.below a c := by rw [← hhigh]; ring
      _ ≤ f.lowNum * c + k * (f.highDen * a) + f.above a c := Nat.add_le_add_left hle _
      _ = f.lowNum * c + f.above a c + k * (f.highDen * a) := by ring
      _ = (f.lowDen + k * f.highDen) * a := by rw [hlow]; ring
  · change f.highNum * (f.lowDen + k * f.highDen) = (f.lowNum + k * f.highNum) * f.highDen + 1
    rw [Nat.mul_add, h.next]
    ring

theorem Encloses.lower (h : f.Encloses a c) : (f.lower a c limit).Encloses a c := by
  have hlow : f.lowNum * c + f.above a c = f.lowDen * a := Nat.add_sub_cancel' h.low
  have hhigh : f.highDen * a + f.below a c = f.highNum * c := Nat.add_sub_cancel' h.high
  obtain ⟨k, hk⟩ : ∃ k, min (f.below a c / f.above a c) ((limit - 1 - f.highDen) / f.lowDen) = k :=
    ⟨_, rfl⟩
  have hle : k * f.above a c ≤ f.below a c :=
    (Nat.mul_le_mul_right _ (hk ▸ min_le_left _ _)).trans (Nat.div_mul_le_self _ _)
  rw [Neighbours.lower, hk]
  refine ⟨h.low, ?_, ?_⟩
  · calc (f.highDen + k * f.lowDen) * a = f.highDen * a + k * (f.lowDen * a) := by ring
      _ = f.highDen * a + k * (f.lowNum * c) + k * f.above a c := by rw [← hlow]; ring
      _ ≤ f.highDen * a + k * (f.lowNum * c) + f.below a c := Nat.add_le_add_left hle _
      _ = f.highDen * a + f.below a c + k * (f.lowNum * c) := by ring
      _ = (f.highNum + k * f.lowNum) * c := by rw [hhigh]; ring
  · change (f.highNum + k * f.lowNum) * f.lowDen = f.lowNum * (f.highDen + k * f.lowDen) + 1
    rw [Nat.add_mul, h.next]
    ring

theorem Encloses.close (h : f.Encloses a c) (fuel : ℕ) :
    (close a c limit fuel f).Encloses a c := by
  induction fuel generalizing f with
  | zero => exact h
  | succ fuel ih =>
    rw [Neighbours.close]
    split_ifs
    · exact h
    · exact ih h.raise
    · exact ih h.lower

/-- Every pair of numbers is a combination of the two fractions, and how far `d * a` and `m * c`
are apart is a combination of their distances. -/
theorem Encloses.combination (h : f.Encloses a c) (d m : ℤ) :
    d = (d * f.highNum - m * f.highDen) * f.lowDen + (m * f.lowDen - d * f.lowNum) * f.highDen ∧
      d * a - m * c = (d * f.highNum - m * f.highDen) * f.above a c -
        (m * f.lowDen - d * f.lowNum) * f.below a c := by
  have hnext : (f.highNum : ℤ) * f.lowDen = f.lowNum * f.highDen + 1 := by exact_mod_cast h.next
  have habove : (f.above a c : ℤ) = f.lowDen * a - f.lowNum * c := by
    rw [above, Nat.cast_sub h.low]
    push_cast
    rfl
  have hbelow : (f.below a c : ℤ) = f.highNum * c - f.highDen * a := by
    rw [below, Nat.cast_sub h.high]
    push_cast
    rfl
  rw [habove, hbelow]
  constructor
  · linear_combination d * hnext.symm
  · linear_combination (d * a - m * c) * hnext.symm

/-- With a small denominator, only one of the two fractions counts positively. -/
theorem sides {s t d : ℤ} {p q : ℕ} (hd : d = s * p + t * q) (hpos : 0 < d)
    (hlt : d < p + q) : 0 < s ∧ t ≤ 0 ∨ s ≤ 0 ∧ 0 < t := by
  have hp : (0 : ℤ) ≤ p := Int.natCast_nonneg p
  have hq : (0 : ℤ) ≤ q := Int.natCast_nonneg q
  -- If both counted, then the denominator would be at least the sum of theirs.
  rcases lt_or_ge 0 s with hs | hs <;> rcases lt_or_ge 0 t with ht | ht
  · nlinarith
  · exact .inl ⟨hs, ht⟩
  · exact .inr ⟨hs, ht⟩
  · nlinarith

/-- A combination that counts one fraction positively is as far away as that one, in proportion to
its denominator. -/
theorem gap_of_pos {k l a p q x y : ℕ} (hfar : k * (p * a) < l * x) {s t d v : ℤ}
    (hd : d = s * p + t * q) (hv : s * x - t * y ≤ |v|) (hs : 0 < s) (ht : t ≤ 0) :
    k * (d * a) < l * |v| := by
  have hfar' : (k * (p * a) : ℤ) < l * x := by exact_mod_cast hfar
  have hle : s * x ≤ |v| := by nlinarith [Int.natCast_nonneg y]
  have hdle : d ≤ s * p := by nlinarith [Int.natCast_nonneg q]
  calc (k * (d * a) : ℤ) = k * a * d := by ring
    _ ≤ k * a * (s * p) := mul_le_mul_of_nonneg_left hdle (by positivity)
    _ = s * (k * (p * a)) := by ring
    _ < s * (l * x) := mul_lt_mul_of_pos_left hfar' hs
    _ = l * (s * x) := by ring
    _ ≤ l * |v| := mul_le_mul_of_nonneg_left hle (by positivity)

/-- Where both fractions are far enough away from the number, so is every other one with a small
denominator. -/
theorem Encloses.gap (h : f.Encloses a c) {k l : ℕ} (hlow : k * (f.lowDen * a) < l * f.above a c)
    (hhigh : k * (f.highDen * a) < l * f.below a c) {d m : ℤ} (hpos : 0 < d)
    (hlt : d < f.lowDen + f.highDen) : k * (d * a) < l * |d * a - m * c| := by
  obtain ⟨hd, hvalue⟩ := h.combination d m
  rcases sides hd hpos hlt with ⟨hs, ht⟩ | ⟨hs, ht⟩
  · exact gap_of_pos hlow hd (hvalue.ge.trans (le_abs_self _)) hs ht
  · have hneg := ((neg_sub _ _).symm.trans (congrArg Neg.neg hvalue.symm)).le.trans
      (neg_le_abs (d * a - m * c))
    exact gap_of_pos hhigh (hd.trans (add_comm _ _)) hneg ht hs

/-- Where only the upper fraction is not far enough away, every other one with a denominator that
is small enough is. -/
theorem Encloses.gap_of_ne (h : f.Encloses a c) {k l : ℕ}
    (hlow : k * (f.lowDen * a) < l * f.above a c) (hfar : k * (limit * a) ≤ l * f.above a c)
    (hlimit : limit ≤ f.lowDen + f.highDen) (hlimit' : limit ≤ 2 * f.highDen) {d m : ℤ}
    (hpos : 0 < d) (hlt : d < limit) (hne : d ≠ f.highDen) (ha : 0 < k * a) :
    k * (d * a) < l * |d * a - m * c| := by
  obtain ⟨hd, hvalue⟩ := h.combination d m
  rcases sides hd hpos (by omega) with ⟨hs, ht⟩ | ⟨hs, ht⟩
  · exact gap_of_pos hlow hd (hvalue.ge.trans (le_abs_self _)) hs ht
  · generalize d * f.highNum - m * f.highDen = s at hd hvalue hs
    generalize m * f.lowDen - d * f.lowNum = t at hd hvalue ht
    -- The lower fraction counts too, or else the denominator is that of the upper one.
    have hneg : s ≤ -1 := by
      refine Int.le_sub_one_of_lt (lt_of_le_of_ne hs fun hzero => ?_)
      rw [hzero, zero_mul, zero_add] at hd
      rcases (by omega : t = 1 ∨ 2 ≤ t) with rfl | ht2
      · exact hne (hd.trans (one_mul _))
      · nlinarith [Int.natCast_nonneg f.highDen]
    have hle : (f.above a c : ℤ) ≤ |d * a - m * c| := by
      refine le_trans ?_ (neg_le_abs _)
      rw [hvalue]
      nlinarith [Int.natCast_nonneg (f.above a c), Int.natCast_nonneg (f.below a c)]
    have hfar' : (k * (limit * a) : ℤ) ≤ l * f.above a c := by exact_mod_cast hfar
    have ha' : (0 : ℤ) < k * a := by exact_mod_cast ha
    calc (k * (d * a) : ℤ) = k * a * d := by ring
      _ < k * a * limit := mul_lt_mul_of_pos_left hlt ha'
      _ = k * (limit * a) := by ring
      _ ≤ l * f.above a c := hfar'
      _ ≤ l * |d * a - m * c| := mul_le_mul_of_nonneg_left hle (by positivity)

end Neighbours

end Phrasebook
