/-!
# Shortest decimals

A binary floating-point number stands for every real that rounds to it. Its shortest decimal is
the multiple of the highest power of ten among those reals; of two such multiples it is the
nearer one, and of two equally near ones the even one. All of it is computed with natural
numbers.
-/

namespace Phrasebook

/-- A positive binary fraction `mantissa * 2 ^ exponent`. -/
structure BinaryFraction where
  /-- The significant bits. -/
  mantissa : Nat
  /-- The power of two by which they count. -/
  exponent : Int
  /-- The next smaller fraction of the format is only half as far away as the next larger one. -/
  narrowBelow : Bool
  deriving DecidableEq, Repr

/-- The fraction whose exponent and mantissa fields are given, in a format whose mantissa field
has `width` bits and whose least exponent is `least`; `none` for zero. -/
def BinaryFraction.ofFields? (width : Nat) (least : Int) (exponent mantissa : Nat) :
    Option BinaryFraction :=
  if exponent = 0 then
    if mantissa = 0 then none else some ⟨mantissa, least, false⟩
  else some ⟨.pow 2 width + mantissa, least + (exponent - 1 : Nat), mantissa = 0 ∧ 1 < exponent⟩

/-- A decimal `digits * 10 ^ exponent`. -/
structure Decimal where
  /-- The digits as a number. -/
  digits : Nat
  /-- The power of ten by which they count. -/
  exponent : Int
  deriving DecidableEq, Repr, Inhabited

/-- The numerator of the power `base ^ exponent`. -/
def powerNumerator (base : Nat) (exponent : Int) : Nat := base.pow exponent.toNat

/-- The denominator of the power `base ^ exponent`. -/
def powerDenominator (base : Nat) (exponent : Int) : Nat := base.pow (-exponent).toNat

namespace BinaryFraction

/-- Four times the mantissa; the unit of the bounds below is a quarter of the last bit. -/
def quarters (x : BinaryFraction) : Nat := 4 * x.mantissa

/-- The least real that may round to the fraction, in quarters of the last bit. -/
def lower (x : BinaryFraction) : Nat := x.quarters - (if x.narrowBelow then 1 else 2)

/-- The greatest real that may round to the fraction, in quarters of the last bit. -/
def upper (x : BinaryFraction) : Nat := x.quarters + 2

/-- How many quarters of the last bit, each taken `quarterScale` times, make the power of ten
`10 ^ e` taken `tenScale` times. -/
def quarterScale (x : BinaryFraction) (e : Int) : Nat :=
  powerNumerator 2 (x.exponent - 2) * powerDenominator 10 e

/-- See `quarterScale`. -/
def tenScale (x : BinaryFraction) (e : Int) : Nat :=
  powerNumerator 10 e * powerDenominator 2 (x.exponent - 2)

/-- Whether `digits * 10 ^ e` rounds to the fraction; the bounds themselves round to the even
mantissa. -/
def rounds (x : BinaryFraction) (e : Int) (digits : Nat) : Bool :=
  let point := digits * x.tenScale e
  let low := x.lower * x.quarterScale e
  let high := x.upper * x.quarterScale e
  if x.mantissa % 2 = 0 then low ≤ point && point ≤ high else low < point && point < high

/-- The multiple of `10 ^ e` that is nearest to the fraction among those that round to it. -/
def nearest? (x : BinaryFraction) (e : Int) : Option Nat :=
  let value := x.quarters * x.quarterScale e
  let below := value / x.tenScale e
  let above := below + 1
  match x.rounds e below, x.rounds e above with
  | false, false => none
  | true, false => some below
  | false, true => some above
  | true, true =>
    let toBelow := value - below * x.tenScale e
    let toAbove := above * x.tenScale e - value
    if toBelow < toAbove then some below
    else if toAbove < toBelow then some above
    else if below % 2 = 0 then some below
    else some above

/-- A power of ten that is greater than the fraction. -/
def magnitude (x : BinaryFraction) : Int :=
  (Nat.log2 x.mantissa + 1 + x.exponent) * 30103 / 100000 + 1

/-- The shortest decimal that rounds to the fraction. Seventeen digits are always enough. -/
def shortest (x : BinaryFraction) : Decimal :=
  ((List.range 20).findSome? fun i =>
    -- Powers of ten are tried from the highest one on, so the first hit has the fewest digits.
    let e := x.magnitude - (i : Nat)
    (x.nearest? e).map fun digits => ⟨digits, e⟩).getD default

end BinaryFraction

end Phrasebook
