import Phrasebook.Text.Basic

/-!
# Lines of a text

A line feed ends a line, so what stands before one and what stands behind it have lines of their
own. What stands behind the last line feed is a line as well, unless it is empty. A text that ends
with a line feed therefore has one more line, an empty one, when another line feed follows.

* `Text.lines_append_newline`, `Text.lines_cons`: the lines on both sides of a line feed.
* `Text.map_splitOn_eq_or`: the lines of a text that a line feed follows.
* `Text.firstLines`, `Text.lines_firstLines`: a text up to the end of some line.
-/

namespace Phrasebook

namespace Text

/-- The runs between line feeds that are lines: without the last one when it is empty. -/
theorem lines_eq_map {text : String} : lines text =
    (if (text.toList.splitOn '\n').getLast? = some [] then (text.toList.splitOn '\n').dropLast
      else text.toList.splitOn '\n').map fun line => String.ofList (dropReturn line) := rfl

/-- Behind a line feed the lines begin anew. -/
theorem lines_append_newline {first second : String} : lines (first ++ "\n" ++ second) =
    (first.toList.splitOn '\n').map (fun line => String.ofList (dropReturn line)) ++
      lines second := by
  have hchars : (first ++ "\n" ++ second).toList = first.toList ++ '\n' :: second.toList := by
    simp
  have hne : second.toList.splitOn '\n' ≠ [] := List.splitOn_ne_nil _ _
  have hlast : (first.toList.splitOn '\n' ++ second.toList.splitOn '\n').getLast? =
      (second.toList.splitOn '\n').getLast? := by
    rw [List.getLast?_append, List.getLast?_eq_some_getLast hne, Option.some_or]
  rw [lines_eq_map, lines_eq_map, hchars, List.splitOn_append_cons_self, hlast]
  split
  · rw [List.dropLast_append_of_ne_nil hne, List.map_append]
  · rw [List.map_append]

/-- What stands between the line feeds are the lines, up to an empty one at the end. -/
theorem map_splitOn_eq_or (text : String) :
    (text.toList.splitOn '\n').map (fun line => String.ofList (dropReturn line)) = lines text ∨
    (text.toList.splitOn '\n').map (fun line => String.ofList (dropReturn line)) =
      lines text ++ [""] := by
  rw [lines_eq_map]
  split
  · next hlast =>
    refine .inr ?_
    obtain ⟨runs, hruns⟩ := List.getLast?_eq_some_iff.1 hlast
    rw [hruns, List.dropLast_concat, List.map_append]
    rfl
  · exact .inl rfl

/-! ### The first lines -/

/-- Some characters up to the end of a line, where lines are counted from 1. -/
def firstLineChars : Nat → List Char → List Char
  | 0, _ => []
  | _, [] => []
  | n + 1, c :: cs =>
    c :: (if c = '\n' then firstLineChars n cs else firstLineChars (n + 1) cs)

/-- The text up to the end of a line, where lines are counted from 1; all of it when there are not
as many lines. -/
def firstLines (n : Nat) (text : String) : String := String.ofList (firstLineChars n text.toList)

/-- A line that ends is one line of the text. -/
theorem lines_cons {line rest : List Char} (hline : '\n' ∉ line) :
    lines (String.ofList (line ++ '\n' :: rest)) =
      String.ofList (dropReturn line) :: lines (String.ofList rest) := by
  have hsplit : String.ofList (line ++ '\n' :: rest) =
      String.ofList line ++ "\n" ++ String.ofList rest := by
    rw [← String.toList_inj]
    simp
  rw [hsplit, lines_append_newline, String.toList_ofList, List.splitOn_eq_singleton hline]
  rfl

/-- A text without line feeds has at most one line. -/
theorem length_lines_le_one {line : List Char} (hline : '\n' ∉ line) :
    (lines (String.ofList line)).length ≤ 1 := by
  rw [lines_eq_map, String.toList_ofList, List.splitOn_eq_singleton hline, List.length_map]
  split
  · exact Nat.zero_le 1
  · exact Nat.le_refl 1

theorem firstLineChars_append {line rest : List Char} {n : Nat} (hline : '\n' ∉ line) :
    firstLineChars (n + 1) (line ++ '\n' :: rest) = line ++ '\n' :: firstLineChars n rest := by
  induction line with
  | nil => rfl
  | cons c line ih =>
    obtain ⟨hc, hline⟩ := List.ne_and_not_mem_of_not_mem_cons hline
    rw [List.cons_append, firstLineChars, if_neg (Ne.symm hc), ih hline, List.cons_append]

theorem firstLineChars_of_not_mem {line : List Char} {n : Nat} (hline : '\n' ∉ line) :
    firstLineChars (n + 1) line = line := by
  induction line with
  | nil => rfl
  | cons c line ih =>
    obtain ⟨hc, hline⟩ := List.ne_and_not_mem_of_not_mem_cons hline
    rw [firstLineChars, if_neg (Ne.symm hc), ih hline]

theorem lines_firstLineChars (n : Nat) (cs : List Char) :
    lines (String.ofList (firstLineChars n cs)) = (lines (String.ofList cs)).take n := by
  induction n generalizing cs with
  | zero =>
    rw [firstLineChars, List.take_zero]
    rfl
  | succ n ih =>
    cases hcut : cutAt '\n' cs with
    | none =>
      have hline := cutAt_eq_none_iff.1 hcut
      have hlength := length_lines_le_one hline
      rw [firstLineChars_of_not_mem hline, List.take_of_length_le (by omega)]
    | some parts =>
      obtain ⟨line, rest⟩ := parts
      obtain ⟨rfl, hline⟩ := cutAt_eq_some_iff.1 hcut
      rw [firstLineChars_append hline, lines_cons hline, lines_cons hline, ih, List.take_succ_cons]

/-- A text up to the end of a line has the lines up to this one. -/
theorem lines_firstLines (n : Nat) (text : String) :
    lines (firstLines n text) = (lines text).take n := by
  rw [firstLines, lines_firstLineChars, String.ofList_toList]

end Text

end Phrasebook
