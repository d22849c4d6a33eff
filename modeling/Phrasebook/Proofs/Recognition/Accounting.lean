import Phrasebook.Proofs.Recognition.StopWords

/-!
# The use of the words accounts for the cost

Fuzzy recognition reports how many words were matched, how many were skipped and how many of these
are stop words. The cost is found on another way, as a part of the search. But the words that are
skipped are those that are paid for: each stop word costs one, and each other word ten. So the
numbers that are reported determine the cost.

* `FuzzyRecognizer.skippedStops`: the number of stop words among those that are skipped.
* `FuzzyRecognizer.Picks.exists_others`: counting the words that are skipped gives the cost.
* `Diagnostics.Describes`: the numbers are those of an alignment.
* `FuzzyRecognizer.accounts_of_new`: the numbers that are reported for some words.
-/

namespace Phrasebook

namespace FuzzyRecognizer

variable {r : FuzzyRecognizer} {tokens words : List String} {word : String} {used : List Nat}
  {position cost : Nat}

/-! ### Counting the words that are skipped -/

/-- The number of stop words, in an input whose first word has the given position, that are not in
the given places. -/
def skippedStops (r : FuzzyRecognizer) (tokens : List String) (position : Nat) (used : List Nat) :
    Nat :=
  (tokens.zipIdx position).countP fun (word, i) =>
    !used.contains i && r.leniency.stopWords.contains word

theorem skippedStops_le : r.skippedStops tokens position used ≤ tokens.length := by
  calc r.skippedStops tokens position used
    _ ≤ (tokens.zipIdx position).length := List.countP_le_length
    _ = tokens.length := List.length_zipIdx

theorem skippedStops_cons : r.skippedStops (word :: tokens) position used =
    r.skippedStops tokens (position + 1) used +
      if position ∉ used ∧ word ∈ r.leniency.stopWords then 1 else 0 := by
  rw [skippedStops, List.zipIdx_cons, List.countP_cons]
  simp [skippedStops]

/-- A place before the input does not matter. -/
theorem skippedStops_cons_used : r.skippedStops tokens (position + 1) (position :: used) =
    r.skippedStops tokens (position + 1) used := by
  refine List.countP_congr fun ⟨word, i⟩ hmem => ?_
  simp [mem_cons_iff_of_mem_zipIdx hmem]

/-- All words are matched, skipped as stop words or skipped as other words, and the cost is that of
the skipped ones. -/
theorem Picks.exists_others (h : Picks (r.input tokens) position words used cost) :
    ∃ others,
      tokens.length = used.length + (others + r.skippedStops tokens position used) ∧
      cost = Leniency.skipCost * others +
        Leniency.stopWordCost * r.skippedStops tokens position used := by
  induction tokens generalizing position words used cost with
  | nil =>
    cases h
    exact ⟨0, rfl, rfl⟩
  | cons word tokens ih =>
    rw [skippedStops_cons]
    cases h with
    | @skip _ _ _ c cost _ _ skippable later =>
      obtain ⟨others, hlength, rfl⟩ := ih later
      -- The places that are matched are behind the word.
      have hmem : position ∉ used := fun hmem =>
        Nat.not_succ_le_self _ ((picks_iff.1 later).1.above position hmem)
      obtain rfl := Leniency.eq_of_cost? skippable
      -- The same question decides what the word costs and where it is counted.
      by_cases hstop : word ∈ r.leniency.stopWords
      · rw [if_pos hstop, if_pos ⟨hmem, hstop⟩]
        exact ⟨others, by rw [List.length_cons]; omega, by rw [Nat.mul_succ]; omega⟩
      · rw [if_neg hstop, if_neg fun h => hstop h.2]
        rw [Nat.add_zero]
        exact ⟨others + 1, by rw [List.length_cons]; omega, by rw [Nat.mul_succ]; omega⟩
    | @take _ _ _ _ words used later =>
      obtain ⟨others, hlength, rfl⟩ := ih later
      rw [skippedStops_cons_used, if_neg fun h => h.1 List.mem_cons_self]
      exact ⟨others, by rw [List.length_cons, List.length_cons]; omega, rfl⟩

/-- The words of a matching are counted, and what it costs to skip the others. -/
theorem IsMatching.exists_others {m : Matching} (h : r.IsMatching tokens m) :
    ∃ others,
      tokens.length = m.used.length + (others + r.skippedStops tokens 0 m.used) ∧
      r.cost tokens m.used = Leniency.skipCost * others +
        Leniency.stopWordCost * r.skippedStops tokens 0 m.used := by
  obtain ⟨stop, -, -, -, hassigned, -⟩ := isMatching_iff.1 h
  exact (picks_iff.2 ⟨hassigned, rfl⟩).exists_others

end FuzzyRecognizer

/-! ### What is reported -/

/-- The numbers of words are those of an alignment of some words. -/
structure Diagnostics.Describes (d : Diagnostics) (r : FuzzyRecognizer) (tokens : List String)
    (found : Alignment) : Prop where
  /-- The alignment is that of the best matching, whose run consumes the matched words. -/
  exists_best : ∃ m, r.IsBest tokens m ∧ found = m.alignment found.cost ∧
    d.matched = m.words.length
  /-- Some word is matched. -/
  matched_pos : 1 ≤ d.matched
  /-- The words that are skipped account for the cost. -/
  cost_eq : found.cost = Leniency.skipCost * (d.skipped - d.skippedStopWords) +
    Leniency.stopWordCost * d.skippedStopWords
  /-- At most all words but one are paid for, none as a stop word. -/
  cost_le : found.cost ≤ Leniency.skipCost * (d.total - 1)

namespace FuzzyRecognizer

variable {r : FuzzyRecognizer} {tokens : List String}

/-- The numbers that are reported for the words of an input. -/
structure Accounts (r : FuzzyRecognizer) (tokens : List String) (d : Diagnostics) : Prop where
  /-- All words are counted. -/
  total_eq : d.total = tokens.length
  /-- Each word is matched or skipped. -/
  matched_add_skipped : d.matched + d.skipped = d.total
  /-- Only skipped words are counted as skipped stop words. -/
  skippedStopWords_le : d.skippedStopWords ≤ d.skipped
  /-- When what is found decodes, the numbers are those of the alignment that is found, and its
  cost gives the confidence. -/
  decoded : ∀ found intent, r.bestAlignment tokens = some found →
    Intent.ofSymbols found.output = .ok intent →
      (r.recognize tokens).intent = { intent with confidence := confidence found.cost d.total } ∧
      d.Describes r tokens found
  /-- When nothing is found or it does not decode, no word is matched. -/
  matched_eq_zero : (∀ found intent, r.bestAlignment tokens = some found →
    Intent.ofSymbols found.output ≠ .ok intent) → d.matched = 0

/-- The numbers are those of the best matching. -/
theorem IsBest.describes {m : Matching} (h : r.IsBest tokens m) :
    (r.diagnose tokens m.used).Describes r tokens (m.alignment (r.cost tokens m.used)) := by
  obtain ⟨others, hlength, hcost⟩ := h.isMatching.exists_others
  have hmatched := List.length_pos_of_ne_nil h.isMatching.matched
  have hskipped : tokens.length - m.used.length - r.skippedStops tokens 0 m.used = others := by
    omega
  refine ⟨⟨m, h, rfl, h.isMatching.length_used⟩, hmatched, ?_, ?_⟩
  · change r.cost tokens m.used = Leniency.skipCost *
      (tokens.length - m.used.length - r.skippedStops tokens 0 m.used) +
        Leniency.stopWordCost * r.skippedStops tokens 0 m.used
    rw [hskipped, hcost]
  · change r.cost tokens m.used ≤ Leniency.skipCost * (tokens.length - 1)
    rw [hcost, Leniency.skipCost, Leniency.stopWordCost]
    omega

/-- The numbers when no word is matched. -/
theorem accounts_diagnose_nil
    (h : ∀ found intent, r.bestAlignment tokens = some found →
      Intent.ofSymbols found.output ≠ .ok intent) :
    r.Accounts tokens (r.diagnose tokens []) :=
  ⟨rfl, Nat.zero_add _, skippedStops_le,
    fun found intent hfound hdecode => absurd hdecode (h found intent hfound), fun _ => rfl⟩

/-- The numbers when the best matching decodes. -/
theorem IsBest.accounts {m : Matching} {intent : Intent} (h : r.IsBest tokens m)
    (hfound : r.bestAlignment tokens = some (m.alignment (r.cost tokens m.used)))
    (hdecode : Intent.ofSymbols (m.alignment (r.cost tokens m.used)).output = .ok intent)
    (hintent : (r.recognize tokens).intent =
      { intent with confidence := confidence (r.cost tokens m.used) tokens.length }) :
    r.Accounts tokens (r.diagnose tokens m.used) := by
  obtain ⟨others, hlength, -⟩ := h.isMatching.exists_others
  refine ⟨rfl, ?_, ?_, ?_, fun hnone => absurd hdecode (hnone _ intent hfound)⟩
  · exact Nat.add_sub_of_le (hlength ▸ Nat.le_add_right _ _)
  · change r.skippedStops tokens 0 m.used ≤ tokens.length - m.used.length
    omega
  · -- There is only one alignment that is found, and it decodes to one intent.
    intro found intent' hfound' hdecode'
    obtain rfl := Option.some.inj (hfound.symm.trans hfound')
    obtain rfl := Except.ok.inj (hdecode.symm.trans hdecode')
    exact ⟨hintent, h.describes⟩

/-- The numbers of words that fuzzy recognition reports account for the confidence. For every
well-formed automaton that has a recognizer, and in every input, each word is counted as matched
or as skipped, and no more stop words than words are skipped. When what is found decodes, then the
matched words are those that the run consumes, at least one, and the cost that gives the confidence
is ten for each skipped word, but one for each stop word among them. Otherwise no word is
matched. -/
theorem accounts_of_new {a : Automaton} (ha : a.WellFormed) {leniency : Leniency}
    {filter : Option WordSet} (hr : FuzzyRecognizer.new a leniency filter = .ok r)
    (tokens : List String) :
    ∃ d, (r.recognize tokens).diagnostics = some d ∧ r.Accounts tokens d := by
  obtain ⟨rfl, horder⟩ := isOrder_of_new ha hr
  rcases bestAlignment_cases ha horder tokens with ⟨hnone, -⟩ | ⟨m, hm, hfound⟩
  · refine ⟨r.diagnose tokens [], by simp [recognize, hnone], accounts_diagnose_nil ?_⟩
    rintro found intent hfound
    rw [hnone] at hfound
    cases hfound
  · have htokens : tokens ≠ [] := by
      rintro rfl
      exact not_isMatching_nil hm.isMatching
    have hrecognize := recognize_of_bestAlignment htokens hfound
    cases hdecode : Intent.ofSymbols (m.alignment (r.cost tokens m.used)).output with
    | error fault =>
      -- What is found is passed over, as if nothing were found.
      rw [hdecode] at hrecognize
      refine ⟨r.diagnose tokens [], by rw [hrecognize], accounts_diagnose_nil ?_⟩
      intro found intent hfound' hdecode'
      obtain rfl := Option.some.inj (hfound.symm.trans hfound')
      rw [hdecode] at hdecode'
      cases hdecode'
    | ok intent =>
      rw [hdecode] at hrecognize
      exact ⟨r.diagnose tokens m.used, by rw [hrecognize]; rfl,
        hm.accounts hfound hdecode (by rw [hrecognize]; rfl)⟩

/-- An intent with one word, between a stop word and another one: of three words two are skipped,
of which one is a stop word. -/
theorem accounts_of_new_between : ∃ a r,
    a = mergeIntents [("A", .ofArc (some "hello") (some (.word "hello")))] ∧
    FuzzyRecognizer.new a ⟨.ofList ["please"], none, false⟩ none = .ok r ∧
    (r.recognize ["please", "hello", "there"]).isMatch = true ∧
    (r.recognize ["please", "hello", "there"]).diagnostics = some ⟨3, 1, 2, 1⟩ ∧
    r.Accounts ["please", "hello", "there"] ⟨3, 1, 2, 1⟩ := by
  have hwf := (Automaton.spells_union <| .cons
    ((Automaton.spells_ofArc (some "hello") (some (.word "hello"))).wrap (.openIntent "A")
      .closeIntent) .nil).tidy.wellFormed
  have hfound : (FuzzyRecognizer.new
      (mergeIntents [("A", .ofArc (some "hello") (some (.word "hello")))])
      ⟨.ofList ["please"], none, false⟩ none).toOption.any (fun r =>
        (r.recognize ["please", "hello", "there"]).isMatch &&
          (r.recognize ["please", "hello", "there"]).diagnostics == some ⟨3, 1, 2, 1⟩) = true := by
    decide +kernel
  cases hr : FuzzyRecognizer.new
      (mergeIntents [("A", .ofArc (some "hello") (some (.word "hello")))])
      ⟨.ofList ["please"], none, false⟩ none with
  | error e =>
    rw [hr] at hfound
    cases hfound
  | ok r =>
    rw [hr] at hfound
    obtain ⟨hmatch, hdiagnostics⟩ := Bool.and_eq_true_iff.1 hfound
    have hdiagnostics := eq_of_beq hdiagnostics
    obtain ⟨d, hd, haccounts⟩ := accounts_of_new hwf hr ["please", "hello", "there"]
    obtain rfl := Option.some.inj (hdiagnostics.symm.trans hd)
    exact ⟨_, r, rfl, hr, hmatch, hd, haccounts⟩

end FuzzyRecognizer

end Phrasebook
