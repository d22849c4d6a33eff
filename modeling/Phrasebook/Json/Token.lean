import Phrasebook.Json.Basic
import Phrasebook.Text.Basic

/-!
# Tokens of JSON text

JSON text is cut into punctuation, literals, numerals and strings, between which the four JSON
blanks may stand.
-/

namespace Phrasebook

namespace Json

/-- A token of JSON text. -/
inductive Token
  | openArray
  | closeArray
  | openObject
  | closeObject
  | comma
  | colon
  /-- A value that is a single token. -/
  | scalar (value : Json)

namespace Token

/-- The blanks of JSON. -/
def isSpace (c : Char) : Bool := c == ' ' || c == '\n' || c == '\r' || c == '\t'

/-- The number of four hexadecimal digits. -/
def hexNumber? (a b c d : Char) : Option Nat := do
  return ((← Text.hexDigit? a) * 16 + (← Text.hexDigit? b)) * 256 +
    (← Text.hexDigit? c) * 16 + (← Text.hexDigit? d)

/-- The character that a letter stands for behind a backslash. -/
def unescape? : Char → Option Char
  | '"' => some '"'
  | '\\' => some '\\'
  | '/' => some '/'
  | 'b' => some '\u0008'
  | 'f' => some '\u000c'
  | 'n' => some '\n'
  | 'r' => some '\r'
  | 't' => some '\t'
  | _ => none

/-- The code units of a string literal up to its closing quote, and what follows the quote.
Characters beyond the first plane count as one unit. -/
def scanUnits : List Char → Option (List Nat × List Char)
  | [] => none
  | '"' :: rest => some ([], rest)
  | '\\' :: 'u' :: a :: b :: c :: d :: rest => do
    let unit ← hexNumber? a b c d
    let (units, rest) ← scanUnits rest
    return (unit :: units, rest)
  | '\\' :: c :: rest => do
    let char ← unescape? c
    let (units, rest) ← scanUnits rest
    return (char.toNat :: units, rest)
  | c :: rest =>
    if c.toNat < 0x20 then none
    else do
      let (units, rest) ← scanUnits rest
      return (c.toNat :: units, rest)

/-- The characters of some code units; `none` where a surrogate has no partner. -/
def joinUnits : List Nat → Option (List Char)
  | [] => some []
  | high :: low :: rest =>
    if 0xD800 ≤ high ∧ high < 0xDC00 ∧ 0xDC00 ≤ low ∧ low < 0xE000 then do
      -- A pair of surrogates is one character beyond the first plane.
      return Char.ofNat (0x10000 + (high - 0xD800) * 0x400 + (low - 0xDC00)) :: (← joinUnits rest)
    else if 0xD800 ≤ high ∧ high < 0xE000 then none
    else do return Char.ofNat high :: (← joinUnits (low :: rest))
  | [unit] => if 0xD800 ≤ unit ∧ unit < 0xE000 then none else some [Char.ofNat unit]

/-- The text of a string literal that begins behind its opening quote. -/
def scanString (cs : List Char) : Option (Option String × List Char) := do
  let (units, rest) ← scanUnits cs
  return ((joinUnits units).map String.ofList, rest)

/-- The digits at the beginning, of which there has to be one. -/
def scanDigits (cs : List Char) : Option (List Char × List Char) :=
  let digits := cs.takeWhile Char.isDigit
  if digits.isEmpty then none else some (digits, cs.dropWhile Char.isDigit)

/-- The digits before the point: a zero stands alone. -/
def scanWhole (cs : List Char) : Option (List Char × List Char) :=
  match cs with
  | '0' :: rest => some (['0'], rest)
  | _ => scanDigits cs

/-- The digits behind the point, if there is a point. -/
def scanFraction (cs : List Char) : Option (List Char × List Char) :=
  match cs with
  | '.' :: rest => scanDigits rest
  | _ => some ([], cs)

/-- The number of some digits. -/
def digitsValue (digits : List Char) : Nat :=
  digits.foldl (fun n d => n * 10 + (d.toNat - '0'.toNat)) 0

/-- The digits of an exponent behind its sign. -/
def scanSignedDigits (cs : List Char) : Option (Int × List Char) :=
  match cs with
  | '-' :: rest => do
    let (digits, rest) ← scanDigits rest
    return (-(digitsValue digits : Int), rest)
  | '+' :: rest => do
    let (digits, rest) ← scanDigits rest
    return ((digitsValue digits : Int), rest)
  | _ => do
    let (digits, rest) ← scanDigits cs
    return ((digitsValue digits : Int), rest)

/-- The exponent, if there is one. -/
def scanExponent (cs : List Char) : Option (Option Int × List Char) :=
  match cs with
  | c :: rest =>
    if c = 'e' ∨ c = 'E' then do
      let (e, rest) ← scanSignedDigits rest
      return (some e, rest)
    else some (none, cs)
  | [] => some (none, [])

/-- The numeral at the beginning, behind its sign. -/
def scanMagnitude (negative : Bool) (cs : List Char) : Option (Numeral × List Char) := do
  let (whole, rest) ← scanWhole cs
  let (fraction, rest) ← scanFraction rest
  let (exponent, rest) ← scanExponent rest
  return (⟨negative, whole, fraction, exponent⟩, rest)

/-- The numeral at the beginning. -/
def scanNumeral (cs : List Char) : Option (Numeral × List Char) :=
  match cs with
  | '-' :: rest => scanMagnitude true rest
  | _ => scanMagnitude false cs

/-- The token at the beginning, which is no blank. -/
def scanOne (cs : List Char) : Option (Token × List Char) :=
  match cs with
  | '[' :: rest => some (openArray, rest)
  | ']' :: rest => some (closeArray, rest)
  | '{' :: rest => some (openObject, rest)
  | '}' :: rest => some (closeObject, rest)
  | ',' :: rest => some (comma, rest)
  | ':' :: rest => some (colon, rest)
  | 'n' :: 'u' :: 'l' :: 'l' :: rest => some (scalar null, rest)
  | 't' :: 'r' :: 'u' :: 'e' :: rest => some (scalar (bool true), rest)
  | 'f' :: 'a' :: 'l' :: 's' :: 'e' :: rest => some (scalar (bool false), rest)
  | '"' :: rest => (scanString rest).map fun (text, rest) => (scalar (string text), rest)
  | _ => (scanNumeral cs).map fun (n, rest) => (scalar (number n), rest)

theorem length_of_scanUnits {cs rest : List Char} {units : List Nat}
    (h : scanUnits cs = some (units, rest)) : rest.length < cs.length := by
  fun_induction scanUnits cs generalizing units rest with
  | case1 => simp at h
  | case2 => simp_all
  | case3 a b c d cs ih =>
    simp only [Option.bind_eq_bind, Option.bind_eq_some_iff, Prod.exists] at h
    obtain ⟨_, _, _, _, h, h'⟩ := h
    have := ih h
    simp_all
    omega
  | case4 c cs hc ih =>
    simp only [Option.bind_eq_bind, Option.bind_eq_some_iff, Prod.exists] at h
    obtain ⟨_, _, _, _, h, h'⟩ := h
    have := ih h
    simp_all
    omega
  | case5 => simp at h
  | case6 c cs _ _ _ _ ih =>
    simp only [Option.bind_eq_bind, Option.bind_eq_some_iff, Prod.exists] at h
    obtain ⟨_, _, h, h'⟩ := h
    have := ih h
    simp_all
    omega

theorem length_of_scanDigits {cs digits rest : List Char}
    (h : scanDigits cs = some (digits, rest)) : rest.length < cs.length := by
  unfold scanDigits at h
  cases cs with
  | nil => simp at h
  | cons c cs =>
    by_cases hc : c.isDigit
    · simp [hc] at h
      rw [← h.2]
      have := (cs.dropWhile_sublist Char.isDigit).length_le
      simp
      omega
    · simp [hc] at h

theorem length_of_scanWhole {cs digits rest : List Char}
    (h : scanWhole cs = some (digits, rest)) : rest.length < cs.length := by
  unfold scanWhole at h
  split at h
  · simp_all
  · exact length_of_scanDigits h

theorem length_of_scanFraction {cs digits rest : List Char}
    (h : scanFraction cs = some (digits, rest)) : rest.length ≤ cs.length := by
  unfold scanFraction at h
  split at h
  · have := length_of_scanDigits h
    simp
    omega
  · simp_all

theorem length_of_scanSignedDigits {cs rest : List Char} {e : Int}
    (h : scanSignedDigits cs = some (e, rest)) : rest.length < cs.length := by
  unfold scanSignedDigits at h
  split at h <;> simp only [Option.bind_eq_bind, Option.bind_eq_some_iff, Prod.exists] at h <;>
    obtain ⟨digits, rest', h, h'⟩ := h <;> have := length_of_scanDigits h <;> simp_all <;> omega

theorem length_of_scanExponent {cs rest : List Char} {e : Option Int}
    (h : scanExponent cs = some (e, rest)) : rest.length ≤ cs.length := by
  unfold scanExponent at h
  split at h
  · split at h
    · simp only [Option.bind_eq_bind, Option.bind_eq_some_iff, Prod.exists] at h
      obtain ⟨e, rest', h, h'⟩ := h
      have := length_of_scanSignedDigits h
      simp_all
      omega
    · simp_all
  · simp_all

theorem length_of_scanMagnitude {negative : Bool} {cs rest : List Char} {n : Numeral}
    (h : scanMagnitude negative cs = some (n, rest)) : rest.length < cs.length := by
  simp only [scanMagnitude, Option.bind_eq_bind, Option.bind_eq_some_iff, Prod.exists] at h
  obtain ⟨_, _, hw, _, _, hf, _, _, he, h⟩ := h
  have := length_of_scanWhole hw
  have := length_of_scanFraction hf
  have := length_of_scanExponent he
  simp_all
  omega

theorem length_of_scanNumeral {cs rest : List Char} {n : Numeral}
    (h : scanNumeral cs = some (n, rest)) : rest.length < cs.length := by
  unfold scanNumeral at h
  split at h
  · have := length_of_scanMagnitude h
    simp
    omega
  · exact length_of_scanMagnitude h

/-- Every token takes something off the text. -/
theorem length_of_scanOne {cs rest : List Char} {token : Token}
    (h : scanOne cs = some (token, rest)) : rest.length < cs.length := by
  unfold scanOne at h
  split at h
  case h_10 =>
    simp only [scanString, Option.bind_eq_bind, Option.map_eq_some_iff, Option.bind_eq_some_iff,
      Prod.exists] at h
    obtain ⟨_, rest', ⟨_, _, h, h'⟩, h''⟩ := h
    have := length_of_scanUnits h
    simp_all
    omega
  case h_11 =>
    simp only [Option.map_eq_some_iff, Prod.exists] at h
    obtain ⟨_, rest', h, h'⟩ := h
    have := length_of_scanNumeral h
    simp_all
  all_goals simp_all <;> omega

/-- The tokens of a text. -/
def scan : List Char → Option (List Token)
  | [] => some []
  | c :: cs =>
    if isSpace c then scan cs
    else
      match h : scanOne (c :: cs) with
      | none => none
      | some (token, rest) => do
        have := length_of_scanOne h
        return token :: (← scan rest)
termination_by cs => cs.length
decreasing_by all_goals simp_all

end Token

end Json

end Phrasebook
