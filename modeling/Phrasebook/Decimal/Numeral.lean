import Phrasebook.Decimal.Shortest

/-!
# Numerals

A numeral is a decimal number as it is written: a sign, digits before the point, digits behind
it and an exponent. This file writes floating-point numbers as numerals, shortest and in one of
two styles, and finds the number that a numeral stands for.

Reading a numeral gathers its digits in a word of 64 bits and drops those that no longer fit,
then scales by a power of ten in double precision. Numerals without point and exponent that fit
stay integers.
-/

namespace Phrasebook

/-- A number as it is written in decimal. -/
structure Numeral where
  /-- There is a minus sign. -/
  negative : Bool
  /-- The digits before the point. -/
  whole : List Char
  /-- The digits behind the point; without digits there is no point. -/
  fraction : List Char
  /-- The power of ten by which the number counts, where it is written. -/
  exponent : Option Int
  deriving DecidableEq, Repr, Inhabited

/-- The powers of ten by which the first digit may count in a numeral without exponent. -/
structure NumeralStyle where
  /-- The lowest one. -/
  lowest : Int
  /-- The highest one. -/
  highest : Int

namespace Numeral

/-- The numeral of a natural number. -/
def ofNat (n : Nat) : Numeral := ⟨false, Nat.toDigits 10 n, [], none⟩

/-- The exponent with its sign. -/
def exponentText (e : Int) : List Char :=
  'e' :: (if e < 0 then '-' else '+') :: Nat.toDigits 10 e.natAbs

/-- The characters of the numeral. -/
def chars (n : Numeral) : List Char :=
  (if n.negative then ['-'] else []) ++ n.whole ++
    (if n.fraction.isEmpty then [] else '.' :: n.fraction) ++
    (n.exponent.map exponentText).getD []

/-- A decimal in a style. It has a point when it has no exponent. -/
def ofDecimal (style : NumeralStyle) (negative : Bool) (d : Decimal) : Numeral :=
  let ds := Nat.toDigits 10 d.digits
  let first : Int := d.exponent + (ds.length - 1 : Nat)
  if style.lowest ≤ first ∧ first ≤ style.highest then
    if first < 0 then ⟨negative, ['0'], List.replicate (-first - 1).toNat '0' ++ ds, none⟩
    else
      let ds := ds ++ List.replicate d.exponent.toNat '0'
      let fraction := ds.drop (first.toNat + 1)
      ⟨negative, ds.take (first.toNat + 1), if fraction.isEmpty then ['0'] else fraction, none⟩
  else ⟨negative, ds.take 1, ds.drop 1, some first⟩

/-- The style of numbers of single precision. -/
def singleStyle : NumeralStyle := ⟨-6, 12⟩

/-- The style of numbers of double precision. -/
def doubleStyle : NumeralStyle := ⟨-5, 15⟩

/-- The numeral of a sign and a magnitude, which is zero if it is not given. -/
def ofFraction (style : NumeralStyle) (negative : Bool) : Option BinaryFraction → Numeral
  | none => ⟨negative, ['0'], ['0'], none⟩
  | some x => ofDecimal style negative x.shortest

/-- The shortest numeral of a number of single precision; `none` unless it is finite. -/
def ofSingle? (x : Float32) : Option Numeral :=
  let bits := x.toBits.toNat
  let exponent := bits / .pow 2 23 % .pow 2 8
  if exponent = 255 then none
  else
    some (ofFraction singleStyle (bits / .pow 2 31 = 1)
      (BinaryFraction.ofFields? 23 (-149) exponent (bits % .pow 2 23)))

/-- The shortest numeral of a number of double precision; `none` unless it is finite. -/
def ofDouble? (x : Float) : Option Numeral :=
  let bits := x.toBits.toNat
  let exponent := bits / .pow 2 52 % .pow 2 11
  if exponent = 2047 then none
  else
    some (ofFraction doubleStyle (bits / .pow 2 63 = 1)
      (BinaryFraction.ofFields? 52 (-1074) exponent (bits % .pow 2 52)))

end Numeral

/-- What a numeral stands for. -/
inductive Number
  /-- A natural number of at most 64 bits. -/
  | natural (n : Nat)
  /-- The negative of a positive number, in 64 bits with sign. -/
  | negative (n : Nat)
  /-- A number of double precision. -/
  | real (x : Float)
  deriving Repr

/-- The number of single precision that is nearest to a number of double precision. Of two
equally near ones it is the one with the even mantissa. -/
def roundToSingle (x : Float) : Float32 :=
  .ofModel <| .pack <|
    match x.toModel.unpack with
    | .finite sign mantissa exponent _ => .round .binary32 sign mantissa exponent
    | other => other

namespace Number

/-- The number in single precision. -/
def toSingle : Number → Float32
  | natural n => Float32.ofNat n
  | negative n => -Float32.ofNat n
  | real x => roundToSingle x

/-- The numeral of the number; `none` unless it is finite. -/
def numeral? : Number → Option Numeral
  | natural n => some (.ofNat n)
  | negative n => some { Numeral.ofNat n with negative := true }
  | real x => Numeral.ofDouble? x

end Number

namespace Numeral

/-- Appends digits to a number while it fits into 64 bits; also the digits that are left. -/
def gather (n : Nat) : List Char → Nat × List Char
  | [] => (n, [])
  | d :: ds =>
    let next := n * 10 + (d.toNat - '0'.toNat)
    if next < Nat.pow 2 64 then gather next ds else (n, d :: ds)

/-- The power of ten in double precision. -/
def powerOfTen (e : Nat) : Float := Float.ofScientific 1 false e

/-- The number divided by a power of ten, in steps within the range of double precision. -/
def scaleDown (x : Float) (e : Nat) : Float :=
  if e ≤ 308 then x / powerOfTen e
  else if x == 0 then x
  else scaleDown (x / powerOfTen 308) (e - 308)
termination_by e

/-- The number multiplied by a power of ten; `none` if that is out of range. -/
def scale? (x : Float) (e : Int) : Option Float :=
  if e < 0 then some (scaleDown x e.natAbs)
  else if e ≤ 308 then
    let y := x * powerOfTen e.natAbs
    if y.isInf then none else some y
  else if x == 0 then some x
  else none

/-- The number with the numeral's sign. -/
def signed (n : Numeral) (x : Float) : Float :=
  if n.negative then -x else x

/-- The largest exponent that is counted. -/
def maxExponent : Int := 2147483647

/-- What the numeral stands for; `none` if that is out of range. -/
def value? (n : Numeral) : Option Number :=
  let (significand, dropped) := gather 0 n.whole
  if dropped.isEmpty ∧ n.fraction.isEmpty ∧ n.exponent.isNone then
    -- There is no integer for minus zero, nor below the least of 64 bits.
    if !n.negative then some (.natural significand)
    else if 0 < significand ∧ significand ≤ Nat.pow 2 63 then some (.negative significand)
    else some (.real (-Float.ofNat significand))
  else
    let (significand, unused) := gather significand n.fraction
    let e := n.exponent.getD 0
    let x := Float.ofNat significand
    if maxExponent < e ∧ significand ≠ 0 then none
    else if maxExponent < e ∨ e < -maxExponent then some (.real (n.signed 0))
    else
      -- Digits that were dropped before the point count as zeros, those behind it not at all.
      (scale? x (dropped.length - (n.fraction.length - unused.length : Nat) + e)).map fun x =>
        .real (n.signed x)

end Numeral

end Phrasebook
