/-!
# Blanks, words and lines

Text is cut at *blanks*, the characters with the Unicode property `White_Space`. This file
holds the class of blanks and the ways in which the library takes a text apart: trimming it,
splitting it into words, splitting it into lines, cutting it at the first occurrence of a
character, and taking off a known beginning.

The main facts are that no word is empty (`wordRuns_ne_nil`), and that a cut is made at the
first mark and loses nothing else (`cutAt_eq_some_iff`, `cutAt_eq_none_iff`, `after?_eq_some_iff`).
-/

namespace Phrasebook

/-- The characters with the Unicode property `White_Space`. -/
def isBlank (c : Char) : Bool :=
  let n := c.toNat
  (0x09 ≤ n && n ≤ 0x0D) || n == 0x20 || n == 0x85 || n == 0xA0 || n == 0x1680 ||
    (0x2000 ≤ n && n ≤ 0x200A) || n == 0x2028 || n == 0x2029 || n == 0x202F || n == 0x205F ||
    n == 0x3000

namespace Text

/-- The characters of a text without the blanks at either end. -/
def trimChars (cs : List Char) : List Char :=
  ((cs.dropWhile isBlank).reverse.dropWhile isBlank).reverse

/-- The text without the blanks at either end. -/
def trim (text : String) : String :=
  String.ofList (trimChars text.toList)

/-- The maximal runs of characters that are not blank. -/
def wordRuns (cs : List Char) : List (List Char) :=
  (cs.splitOnP isBlank).filter fun run => !run.isEmpty

/-- The words of a text: its maximal runs of characters that are not blank. -/
def words (text : String) : List String :=
  (wordRuns text.toList).map String.ofList

/-- A line without the carriage return that may end it. -/
def dropReturn (line : List Char) : List Char :=
  if line.getLast? = some '\r' then line.dropLast else line

/-- The lines of a text. A line ends at a line feed, which may follow a carriage return; the
text after the last line feed is a line unless it is empty. -/
def lines (text : String) : List String :=
  let runs := text.toList.splitOn '\n'
  let runs := if runs.getLast? = some [] then runs.dropLast else runs
  runs.map fun line => String.ofList (dropReturn line)

/-- Words joined by single spaces. -/
def joinWords (ws : List String) : String :=
  " ".intercalate ws

/-- The characters before and after the first `mark`, or `none` where there is no `mark`. -/
def cutAt (mark : Char) : List Char → Option (List Char × List Char)
  | [] => none
  | c :: cs =>
    if c = mark then some ([], cs)
    else (cutAt mark cs).map fun (before, after) => (c :: before, after)

/-- The text before and after the first `mark`, or `none` where there is no `mark`. -/
def cut (mark : Char) (text : String) : Option (String × String) :=
  (cutAt mark text.toList).map fun (before, after) => (String.ofList before, String.ofList after)

/-- What follows `start` in some characters that begin with it. -/
def charsAfter? : (start cs : List Char) → Option (List Char)
  | [], cs => some cs
  | s :: start, c :: cs => if s = c then charsAfter? start cs else none
  | _ :: _, [] => none

/-- What follows `start` in a text that begins with it. -/
def after? (start text : String) : Option String :=
  (charsAfter? start.toList text.toList).map String.ofList

/-- The value of a hexadecimal digit. -/
def hexDigit? (c : Char) : Option Nat :=
  if c.isDigit then some (c.toNat - '0'.toNat)
  else if 'a' ≤ c ∧ c ≤ 'f' then some (c.toNat - 'a'.toNat + 10)
  else if 'A' ≤ c ∧ c ≤ 'F' then some (c.toNat - 'A'.toNat + 10)
  else none

theorem charsAfter?_eq_some_iff {start cs rest : List Char} :
    charsAfter? start cs = some rest ↔ cs = start ++ rest := by
  induction start generalizing cs with
  | nil => simp [charsAfter?]
  | cons s start ih =>
    cases cs with
    | nil => simp [charsAfter?]
    | cons c cs =>
      by_cases h : s = c
      · simp [charsAfter?, h, ih]
      · simp [charsAfter?, h, Ne.symm h]

/-- A text begins with `start` exactly when it is `start` and something after it. -/
theorem after?_eq_some_iff {start text rest : String} :
    after? start text = some rest ↔ text = start ++ rest := by
  simp only [after?, Option.map_eq_some_iff, charsAfter?_eq_some_iff]
  constructor
  · rintro ⟨cs, h, rfl⟩
    rw [← String.toList_inj, h, String.toList_append, String.toList_ofList]
  · rintro rfl
    exact ⟨rest.toList, by simp, by simp⟩

/-- What follows `start` in a text is missing where the text begins with something else. -/
theorem after?_eq_none_iff {start text : String} :
    after? start text = none ↔ ¬ start.toList <+: text.toList := by
  rw [Option.eq_none_iff_forall_ne_some]
  refine ⟨fun h ⟨cs, hcs⟩ => h (String.ofList cs) ?_, fun h rest hrest => h ⟨rest.toList, ?_⟩⟩
  · rw [after?_eq_some_iff, ← String.toList_inj, String.toList_append, String.toList_ofList, hcs]
  · rw [after?_eq_some_iff.1 hrest, String.toList_append]

/-- No word is empty. -/
theorem wordRuns_ne_nil {cs run : List Char} (h : run ∈ wordRuns cs) : run ≠ [] := by
  simp only [wordRuns, List.mem_filter] at h
  simpa using h.2

/-- A cut succeeds exactly at the first mark, and puts together what it came from. -/
theorem cutAt_eq_some_iff {mark : Char} {cs before after : List Char} :
    cutAt mark cs = some (before, after) ↔ cs = before ++ mark :: after ∧ mark ∉ before := by
  induction cs generalizing before with
  | nil => simp [cutAt]
  | cons c cs ih =>
    by_cases h : c = mark
    · subst h
      cases before <;> simp [cutAt]
      grind
    · cases before with
      | nil => simp [cutAt, h]
      | cons b bs =>
        simp only [cutAt, if_neg h, Option.map_eq_some_iff, Prod.exists, Prod.mk.injEq]
        grind

/-- A cut fails exactly where there is no mark. -/
theorem cutAt_eq_none_iff {mark : Char} {cs : List Char} :
    cutAt mark cs = none ↔ mark ∉ cs := by
  induction cs with
  | nil => simp [cutAt]
  | cons c cs ih =>
    by_cases h : c = mark
    · simp [cutAt, h]
    · simp [cutAt, h, Ne.symm h, ih]

theorem cut_eq_some_iff {mark : Char} {text before after : String} :
    cut mark text = some (before, after) ↔
      text.toList = before.toList ++ mark :: after.toList ∧ mark ∉ before.toList := by
  rw [← cutAt_eq_some_iff, cut, Option.map_eq_some_iff]
  constructor
  · rintro ⟨⟨cs, ds⟩, hcut, heq⟩
    cases heq
    rwa [String.toList_ofList, String.toList_ofList]
  · exact fun h => ⟨_, h, by simp⟩

theorem cut_eq_none_iff {mark : Char} {text : String} :
    cut mark text = none ↔ mark ∉ text.toList := by
  rw [cut, Option.map_eq_none_iff, cutAt_eq_none_iff]

end Text

end Phrasebook
