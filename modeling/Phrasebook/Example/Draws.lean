/-!
# Random words

Samples are drawn from a sequence of random words of 64 bits. The sequence of a seed is computed
by adding a constant for each word and mixing the bits of the sum.
-/

namespace Phrasebook

/-- Random words of 64 bits, by number. -/
abbrev Draws := Nat → UInt64

namespace Draws

/-- Mixes the bits of a word. -/
def mix (word : UInt64) : UInt64 :=
  let word := (word ^^^ (word >>> 30)) * 0xBF58476D1CE4E5B9
  let word := (word ^^^ (word >>> 27)) * 0x94D049BB133111EB
  word ^^^ (word >>> 31)

/-- The sequence of a seed. -/
def ofSeed (seed : UInt64) : Draws :=
  fun number => mix (seed + (number + 1).toUInt64 * 0x9E3779B97F4A7C15)

/-- Some words, again and again; without any, zeros. -/
def cycle (words : Array UInt64) : Draws :=
  fun number => words[number % words.size]?.getD 0

end Draws

end Phrasebook
