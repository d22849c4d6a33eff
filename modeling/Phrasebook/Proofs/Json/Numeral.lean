import Mathlib.Data.List.TakeWhile
import Phrasebook.Json.Token

/-!
# Numerals are read back

A numeral with digits on both sides of its point, of which a leading zero stands alone, is read
back from its characters when what follows does not go on with it. The numeral of a natural number
stands for that number.

* `Numeral.Proper`: the digits of a numeral are in order.
* `Json.Delimited`: what follows does not go on with a numeral.
* `Numeral.scanNumeral_chars`: a proper numeral is read back.
* `Numeral.value?_ofNat`: the number that the numeral of a natural number stands for.
-/

namespace Phrasebook

/-- There are digits before the point, of which a leading zero stands alone, and behind it there
is nothing but digits. -/
structure Numeral.Proper (n : Numeral) : Prop where
  /-- There are digits before the point. -/
  whole_ne_nil : n.whole ≠ []
  /-- There is nothing else. -/
  isDigit_whole : ∀ c ∈ n.whole, c.isDigit = true
  /-- A leading zero stands alone. -/
  eq_zero : n.whole.head? = some '0' → n.whole = ['0']
  /-- There are digits behind the point. -/
  isDigit_fraction : ∀ c ∈ n.fraction, c.isDigit = true

namespace Json

/-- Some characters do not begin with a digit. -/
def NoDigit (cs : List Char) : Prop := ∀ c ∈ cs.head?, c.isDigit = false

/-- Some characters do not go on with a numeral. -/
def Delimited (cs : List Char) : Prop :=
  ∀ c ∈ cs.head?, c.isDigit = false ∧ c ≠ '.' ∧ c ≠ 'e' ∧ c ≠ 'E'

theorem delimited_nil : Delimited [] := fun _ h => by cases h

theorem delimited_cons {c : Char} {cs : List Char}
    (h : c.isDigit = false ∧ c ≠ '.' ∧ c ≠ 'e' ∧ c ≠ 'E') : Delimited (c :: cs) :=
  fun d hd => by cases hd; exact h

theorem Delimited.noDigit {cs : List Char} (h : Delimited cs) : NoDigit cs :=
  fun c hc => (h c hc).1

theorem noDigit_cons {c : Char} {cs : List Char} (h : c.isDigit = false) : NoDigit (c :: cs) :=
  fun d hd => by cases hd; exact h

namespace Token

variable {ds rest : List Char}

/-- Digits are read up to what is none. -/
theorem scanDigits_append (hne : ds ≠ []) (hds : ∀ c ∈ ds, c.isDigit = true)
    (hrest : NoDigit rest) : scanDigits (ds ++ rest) = some (ds, rest) := by
  have htake : rest.takeWhile Char.isDigit = [] := by
    cases rest with
    | nil => rfl
    | cons c rest => rw [List.takeWhile_cons_of_neg (by rw [hrest c rfl]; exact Bool.false_ne_true)]
  have hdrop : rest.dropWhile Char.isDigit = rest := by
    cases rest with
    | nil => rfl
    | cons c rest => rw [List.dropWhile_cons_of_neg (by rw [hrest c rfl]; exact Bool.false_ne_true)]
  have hempty : ¬ ds.isEmpty = true := by rwa [List.isEmpty_iff]
  rw [scanDigits, List.takeWhile_append_of_pos hds, List.dropWhile_append_of_pos hds, htake, hdrop,
    List.append_nil]
  exact if_neg hempty

theorem scanWhole_append {n : Numeral} (hn : n.Proper) (hrest : NoDigit rest) :
    scanWhole (n.whole ++ rest) = some (n.whole, rest) := by
  have hscan := scanDigits_append hn.whole_ne_nil hn.isDigit_whole hrest
  cases hwhole : n.whole with
  | nil => exact absurd hwhole hn.whole_ne_nil
  | cons d ds =>
    by_cases hzero : d = '0'
    · have heq := hn.eq_zero (by rw [hwhole, hzero]; rfl)
      rw [hwhole] at heq
      rw [heq]
      rfl
    · rw [hwhole] at hscan
      rw [scanWhole]
      · exact hscan
      · rintro cs heq
        cases heq
        exact hzero rfl

theorem scanFraction_append (hds : ∀ c ∈ ds, c.isDigit = true) (hrest : NoDigit rest)
    (hpoint : rest.head? ≠ some '.') :
    scanFraction ((if ds.isEmpty then [] else '.' :: ds) ++ rest) = some (ds, rest) := by
  cases ds with
  | nil =>
    cases rest with
    | nil => rfl
    | cons c rest =>
      rw [List.isEmpty_nil, if_pos rfl, List.nil_append, scanFraction]
      rintro cs heq
      cases heq
      exact hpoint rfl
  | cons d ds => exact scanDigits_append (List.cons_ne_nil d ds) hds hrest

/-- The digits of a number are read as the number. -/
theorem digitsValue_toDigits (n : Nat) : digitsValue (Nat.toDigits 10 n) = n := by
  have h := Nat.ofDigitChars_ten_toDigits (n := n)
  rw [Nat.ofDigitChars_eq_foldl] at h
  simp only [Nat.mul_comm 10] at h
  exact h

/-- An exponent is scanned with its sign. -/
theorem scanSignedDigits_append (e : Int) (hrest : Delimited rest) :
    scanSignedDigits ((if e < 0 then '-' else '+') :: Nat.toDigits 10 e.natAbs ++ rest) =
      some (e, rest) := by
  have hscan : scanDigits (Nat.toDigits 10 e.natAbs ++ rest) = some (_, rest) :=
    scanDigits_append Nat.toDigits_ne_nil
      (fun c hc => Nat.isDigit_of_mem_toDigits (by decide) (by decide) hc) hrest.noDigit
  have hvalue := digitsValue_toDigits e.natAbs
  by_cases he : e < 0
  · have hneg : -(digitsValue (Nat.toDigits 10 e.natAbs) : Int) = e := by
      rw [hvalue]
      omega
    rw [if_pos he, List.cons_append, scanSignedDigits, hscan]
    exact congrArg (fun e => some (e, rest)) hneg
  · have hpos : (digitsValue (Nat.toDigits 10 e.natAbs) : Int) = e := by
      rw [hvalue]
      omega
    rw [if_neg he, List.cons_append, scanSignedDigits, hscan]
    exact congrArg (fun e => some (e, rest)) hpos

theorem scanExponent_append {exponent : Option Int} (hrest : Delimited rest) :
    scanExponent ((exponent.map Numeral.exponentText).getD [] ++ rest) =
      some (exponent, rest) := by
  cases exponent with
  | none =>
    cases rest with
    | nil => rfl
    | cons c rest =>
      obtain ⟨_, _, hlower, hupper⟩ := hrest c rfl
      rw [Option.map_none, Option.getD_none, List.nil_append, scanExponent,
        if_neg (by rintro (h | h); exacts [hlower h, hupper h])]
  | some e =>
    rw [Option.map_some, Option.getD_some, Numeral.exponentText, List.cons_append, scanExponent,
      if_pos (.inl rfl), scanSignedDigits_append e hrest]
    rfl

theorem scanMagnitude_append {n : Numeral} (hn : n.Proper) (hrest : Delimited rest) :
    scanMagnitude n.negative (n.whole ++ ((if n.fraction.isEmpty then [] else '.' :: n.fraction) ++
      ((n.exponent.map Numeral.exponentText).getD [] ++ rest))) = some (n, rest) := by
  have hexponent : ∀ c ∈ ((n.exponent.map Numeral.exponentText).getD [] ++ rest).head?,
      c.isDigit = false ∧ c ≠ '.' := by
    cases n.exponent with
    | none => exact fun c hc => ⟨(hrest c hc).1, (hrest c hc).2.1⟩
    | some e => exact fun c hc => by cases hc; decide
  have hfraction : NoDigit ((if n.fraction.isEmpty then [] else '.' :: n.fraction) ++
      ((n.exponent.map Numeral.exponentText).getD [] ++ rest)) := by
    split
    · exact fun c hc => (hexponent c hc).1
    · exact noDigit_cons rfl
  rw [scanMagnitude, scanWhole_append hn hfraction]
  simp only [Option.bind_eq_bind, Option.bind_some]
  rw [scanFraction_append hn.isDigit_fraction (fun c hc => (hexponent c hc).1)
    (fun hpoint => (hexponent '.' hpoint).2 rfl)]
  simp only [Option.bind_some, scanExponent_append hrest]
  rfl

end Token

end Json

namespace Numeral

open Json

variable {n : Numeral} {rest : List Char}

/-- A proper numeral is read back. -/
theorem scanNumeral_chars (hn : n.Proper) (hrest : Delimited rest) :
    Token.scanNumeral (n.chars ++ rest) = some (n, rest) := by
  have hscan := Token.scanMagnitude_append hn hrest
  rw [chars, List.append_assoc, List.append_assoc, List.append_assoc]
  cases hsign : n.negative with
  | true =>
    rw [hsign] at hscan
    exact hscan
  | false =>
    rw [hsign] at hscan
    obtain ⟨d, ds, hwhole⟩ := List.exists_cons_of_ne_nil hn.whole_ne_nil
    have hdigit := hn.isDigit_whole d (by rw [hwhole]; exact List.mem_cons_self)
    rw [hwhole] at hscan ⊢
    refine Eq.trans ?_ hscan
    rw [if_neg Bool.false_ne_true, List.nil_append, Token.scanNumeral]
    rintro cs heq
    cases heq
    cases hdigit

/-- A numeral begins with a digit or a minus sign. -/
theorem exists_cons_of_chars (hn : n.Proper) :
    ∃ c cs, n.chars = c :: cs ∧ (c = '-' ∨ c.isDigit = true) := by
  obtain ⟨d, ds, hwhole⟩ := List.exists_cons_of_ne_nil hn.whole_ne_nil
  have hdigit := hn.isDigit_whole d (by rw [hwhole]; exact List.mem_cons_self)
  rw [chars, hwhole]
  cases n.negative with
  | true => exact ⟨_, _, rfl, .inl rfl⟩
  | false => exact ⟨_, _, rfl, .inr hdigit⟩

/-- Only zero has digits that begin with a zero. -/
theorem toDigits_eq_zero {n : Nat} (h : (Nat.toDigits 10 n).head? = some '0') :
    Nat.toDigits 10 n = ['0'] := by
  -- The first digit is that of the number divided by ten, as long as that is not zero.
  induction n using Nat.strongRecOn with
  | ind n ih =>
    rcases Nat.lt_or_ge n 10 with hn | hn
    · rw [Nat.toDigits_of_lt_base hn] at h ⊢
      exact congrArg (fun c => [c]) (Option.some.inj h)
    · rw [Nat.toDigits_of_base_le (by decide) hn, List.head?_append, Option.or_eq_some_iff] at h
      have hhead := h.resolve_right fun h => Nat.toDigits_ne_nil (List.head?_eq_none_iff.1 h.1)
      have hzero := ih (n / 10) (Nat.div_lt_self (by omega) (by decide)) hhead
      have hvalue := Token.digitsValue_toDigits (n / 10)
      rw [hzero] at hvalue
      change 0 = n / 10 at hvalue
      omega

/-- The digits of a natural number are in order. -/
theorem proper_ofNat (n : Nat) : (ofNat n).Proper where
  whole_ne_nil := Nat.toDigits_ne_nil
  isDigit_whole c hc := Nat.isDigit_of_mem_toDigits (by decide) (by decide) hc
  eq_zero := toDigits_eq_zero
  isDigit_fraction c hc := absurd hc List.not_mem_nil

/-- The digits of a zero with a point are in order. -/
theorem proper_zero (negative : Bool) : Proper ⟨negative, ['0'], ['0'], none⟩ := by
  have hdigit : ∀ c ∈ ['0'], c.isDigit = true := List.all_eq_true.1 (by decide)
  exact ⟨List.cons_ne_nil _ _, hdigit, fun _ => rfl, hdigit⟩

theorem le_ofDigitChars {init : Nat} (ds : List Char) : init ≤ Nat.ofDigitChars 10 ds init := by
  rw [Nat.ofDigitChars_eq_ofDigitChars_zero]
  have hpow : 1 ≤ 10 ^ ds.length := Nat.one_le_pow _ _ (by decide)
  calc init = 1 * init := (Nat.one_mul init).symm
    _ ≤ 10 ^ ds.length * init := Nat.mul_le_mul_right init hpow
    _ ≤ _ := Nat.le_add_right _ _

/-- Digits of a number that fits into 64 bits are all gathered. -/
theorem gather_eq {init : Nat} {ds : List Char} (h : Nat.ofDigitChars 10 ds init < Nat.pow 2 64) :
    gather init ds = (Nat.ofDigitChars 10 ds init, []) := by
  induction ds generalizing init with
  | nil => rw [gather, Nat.ofDigitChars_nil]
  | cons d ds ih =>
    rw [Nat.ofDigitChars_cons, Nat.mul_comm] at h
    have hnext := Nat.lt_of_le_of_lt (le_ofDigitChars ds) h
    simp only [gather]
    rw [if_pos hnext, ih h, Nat.ofDigitChars_cons, Nat.mul_comm]

/-- The numeral of a natural number stands for it. -/
theorem value?_ofNat {n : Nat} (h : n < Nat.pow 2 64) : (ofNat n).value? = some (.natural n) := by
  have hdigits : Nat.ofDigitChars 10 (Nat.toDigits 10 n) 0 = n := Nat.ofDigitChars_ten_toDigits
  have hgather : gather 0 (Nat.toDigits 10 n) = _ := gather_eq (by rwa [hdigits])
  rw [hdigits] at hgather
  simp only [value?, ofNat, hgather]
  rfl

end Numeral

end Phrasebook
