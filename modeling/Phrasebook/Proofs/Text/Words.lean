import Phrasebook.Template.Printer

/-!
# Words of a text

A blank parts the words before it from those behind it, so words that are joined by spaces are
the words of the joined text.

* `Text.not_of_mem_splitOnP`: no piece between separators holds one.
* `Text.words_of_isUnbroken`, `Text.words_of_mem_words`: texts that are a single word.
* `Text.words_append_space`: words on both sides of a space.
* `Text.words_joinWords`, `Text.words_enclosed`: the words that were joined.
* `Text.splitOn_tab`, `Text.tab_notMem_enclosed`: what stands between tabs.
-/

namespace Phrasebook

namespace Text

/-- No piece between separators holds one. -/
theorem not_of_mem_splitOnP {p : Char → Bool} {cs piece : List Char} (h : piece ∈ cs.splitOnP p) :
    ∀ c ∈ piece, p c = false := by
  induction cs generalizing piece with
  | nil =>
    rw [List.splitOnP_nil, List.mem_singleton] at h
    subst h
    exact fun _ hc => absurd hc List.not_mem_nil
  | cons c cs ih =>
    rw [List.splitOnP_cons_eq_if_modifyHead] at h
    split at h
    · rcases List.mem_cons.1 h with rfl | h
      · exact fun _ hc => absurd hc List.not_mem_nil
      · exact ih h
    · next hc =>
      -- The character comes in front of the first piece.
      obtain ⟨first, rest, hsplit⟩ := List.exists_cons_of_ne_nil (List.splitOnP_ne_nil p cs)
      rw [hsplit] at ih h
      rcases List.mem_cons.1 h with rfl | h
      · exact List.forall_mem_cons.2 ⟨Bool.eq_false_iff.2 hc, ih List.mem_cons_self⟩
      · exact ih (List.mem_cons_of_mem _ h)

/-! ### Single words -/

theorem words_empty : words "" = [] := by
  rw [words, String.toList_empty]
  rfl

/-- A text without blanks is a single word. -/
theorem words_of_isUnbroken {text : String} (h : IsUnbroken text) (hne : text ≠ "") :
    words text = [text] := by
  have hsplit : text.toList.splitOnP isBlank = [text.toList] :=
    List.splitOnP_eq_singleton h
  have hchars : text.toList ≠ [] := fun hnil => hne (String.toList_eq_nil_iff.1 hnil)
  rw [words, wordRuns, hsplit, List.filter_cons_of_pos (by simpa using hchars), List.filter_nil,
    List.map_singleton, String.ofList_toList]

/-- A word holds no blank. -/
theorem isUnbroken_of_mem_words {text w : String} (h : w ∈ words text) : IsUnbroken w := by
  obtain ⟨run, hrun, rfl⟩ := List.mem_map.1 h
  rw [IsUnbroken, String.toList_ofList]
  exact not_of_mem_splitOnP (List.mem_filter.1 hrun).1

/-- A word of a text is a single word. -/
theorem words_of_mem_words {text w : String} (h : w ∈ words text) : words w = [w] := by
  refine words_of_isUnbroken (isUnbroken_of_mem_words h) fun hempty => ?_
  obtain ⟨run, hrun, rfl⟩ := List.mem_map.1 h
  exact wordRuns_ne_nil hrun (String.ofList_eq_empty_iff.1 hempty)

/-! ### Joined words -/

theorem words_append_space {x y : String} : words (x ++ " " ++ y) = words x ++ words y := by
  have hchars : (x ++ " " ++ y).toList = x.toList ++ ' ' :: y.toList := by simp
  rw [words, hchars, wordRuns, List.splitOnP_append_cons _ _ (by decide), List.filter_append,
    List.map_append]
  rfl

/-- Single words that are joined are the words of the text. -/
theorem words_joinWords {ws : List String} (h : ∀ w ∈ ws, words w = [w]) :
    words (joinWords ws) = ws := by
  induction ws with
  | nil => rw [joinWords, String.intercalate_nil, words_empty]
  | cons w ws ih =>
    obtain ⟨hw, hws⟩ := List.forall_mem_cons.1 h
    cases ws with
    | nil => rw [joinWords, String.intercalate_singleton, hw]
    | cons w' ws =>
      have hrest := ih hws
      rw [joinWords] at hrest ⊢
      rw [String.intercalate_cons_cons, words_append_space, hw, hrest]
      rfl

/-- Joined words between two other ones. -/
theorem words_enclosed {first last : String} {ws : List String} (hfirst : words first = [first])
    (h : ∀ w ∈ ws, words w = [w]) (hlast : words last = [last]) :
    words (first ++ " " ++ joinWords ws ++ " " ++ last) = first :: ws ++ [last] := by
  rw [words_append_space, words_append_space, words_joinWords h, hfirst, hlast]
  rfl

/-! ### Tabs -/

theorem tab_notMem_of_words {w : String} (h : words w = [w]) : '\t' ∉ w.toList := by
  intro hmem
  have hblank := isUnbroken_of_mem_words (h ▸ List.mem_cons_self : w ∈ words w) _ hmem
  exact absurd hblank (by decide)

/-- Joined words hold no tab. -/
theorem tab_notMem_joinWords {ws : List String} (h : ∀ w ∈ ws, words w = [w]) :
    '\t' ∉ (joinWords ws).toList := by
  induction ws with
  | nil => rw [joinWords, String.intercalate_nil]; exact List.not_mem_nil
  | cons w ws ih =>
    obtain ⟨hw, hws⟩ := List.forall_mem_cons.1 h
    cases ws with
    | nil => rw [joinWords, String.intercalate_singleton]; exact tab_notMem_of_words hw
    | cons w' ws =>
      have hrest := ih hws
      rw [joinWords] at hrest ⊢
      rw [String.intercalate_cons_cons]
      simpa [tab_notMem_of_words hw] using hrest

theorem tab_notMem_enclosed {first last : String} {ws : List String}
    (hfirst : words first = [first]) (h : ∀ w ∈ ws, words w = [w])
    (hlast : words last = [last]) :
    '\t' ∉ (first ++ " " ++ joinWords ws ++ " " ++ last).toList := by
  simp [tab_notMem_of_words hfirst, tab_notMem_joinWords h, tab_notMem_of_words hlast]

/-- Three texts without tabs stand between the tabs that part them. -/
theorem splitOn_tab {x y z : String} (hx : '\t' ∉ x.toList) (hy : '\t' ∉ y.toList)
    (hz : '\t' ∉ z.toList) :
    (x ++ "\t" ++ y ++ "\t" ++ z).toList.splitOn '\t' = [x.toList, y.toList, z.toList] := by
  have hchars : (x ++ "\t" ++ y ++ "\t" ++ z).toList =
      x.toList ++ '\t' :: (y.toList ++ '\t' :: z.toList) := by simp
  rw [hchars, List.splitOn_append_cons_self_of_not_mem hx,
    List.splitOn_append_cons_self_of_not_mem hy, List.splitOn_eq_singleton hz]

end Text

end Phrasebook
