import Phrasebook.Proofs.Recognition.Decoded

/-!
# What a fuzzy match rests on

A match rests on the words of the best matching, and some word is matched. Stop words count for
that as other words do: they are cheap to skip, but where a run consumes them they are matched.
So a match may rest on stop words only. That happens exactly where some input of stop words only
is a match: the matched words of a match, taken alone, are matched by the same run.

* `FuzzyRecognizer.IsBest`: a matching is preferred to every other one.
* `FuzzyRecognizer.IsBest.alone`: the best matching of some words is that of its matched words.
* `FuzzyRecognizer.rests_of_new`: what a match rests on, in every automaton for which there is a
  recognizer.
* `FuzzyRecognizer.restsOnContent_iff_of_decodes`: when all accepted runs decode, every match has
  another word than stop words exactly if every run that consumes a word consumes such a word.
-/

namespace Phrasebook

namespace Matching

/-- The words that the run consumes. -/
def words (m : Matching) : List String := (Utterance.ofArcs m.arcs).words

/-- The alignment of the matching, given what it costs to skip the other words. -/
def alignment (m : Matching) (cost : Nat) : Alignment :=
  ⟨cost, m.arcs.length, (Utterance.ofArcs m.arcs).output, m.used⟩

end Matching

namespace FuzzyRecognizer

open Phrasebook.Alignment (Optimal)

variable {r : FuzzyRecognizer} {tokens : List String} {m : Matching}

/-! ### The best matching -/

/-- A matching that is preferred to every other one. -/
structure IsBest (r : FuzzyRecognizer) (tokens : List String) (m : Matching) : Prop where
  /-- It is a matching. -/
  isMatching : r.IsMatching tokens m
  /-- It is preferred. -/
  preferred : ∀ m', r.IsMatching tokens m' → m' = m ∨ r.Preferred tokens m m'

/-- There is at most one best matching. -/
theorem IsBest.unique {m' : Matching} (h : r.IsBest tokens m) (h' : r.IsBest tokens m') :
    m = m' := by
  rcases h.preferred m' h'.isMatching with heq | hpref
  · exact heq.symm
  · rcases h'.preferred m h.isMatching with heq | hpref'
    · exact heq
    · -- Each of the two would have to be preferred to the other one.
      unfold Preferred at hpref hpref'
      rcases hpref with hpref | ⟨hcost, hpref⟩
      · omega
      · rcases hpref with hpref | ⟨harcs, hpref⟩
        · omega
        · have hlt : m'.choices < m.choices := by
            rcases hpref' with hpref' | ⟨-, hpref' | ⟨-, hpref'⟩⟩
            · omega
            · omega
            · exact hpref'
          exact absurd (List.lt_trans hpref hlt) (List.lt_irrefl _)

/-- Without words there is no matching. -/
theorem not_isMatching_nil : ¬ r.IsMatching [] m := fun h => by
  obtain ⟨i, used, hused⟩ := List.exists_cons_of_ne_nil h.matched
  have hwords := h.words
  rw [hused] at hwords
  cases hconsumed : (Utterance.ofArcs m.arcs).words with
  | nil => simp [hconsumed] at hwords
  | cons word words => simp [hconsumed] at hwords

/-- There is a recognizer when the states can be ordered. -/
theorem new_eq_ok_iff {a : Automaton} {l : Leniency} {filter : Option WordSet} :
    FuzzyRecognizer.new a l filter = .ok r ↔
      ∃ order, a.silentOrder = .ok order ∧ r = ⟨a, order, l, filter⟩ := by
  unfold FuzzyRecognizer.new
  constructor
  · intro hr
    split at hr
    · next order heq => exact ⟨order, heq, (Except.ok.inj hr).symm⟩
    · cases hr
  · rintro ⟨order, heq, rfl⟩
    rw [heq]

/-- The states of a recognizer are in an order in which arcs that consume nothing lead on. -/
theorem isOrder_of_new {a : Automaton} (ha : a.WellFormed) {leniency : Leniency}
    {filter : Option WordSet} (hr : FuzzyRecognizer.new a leniency filter = .ok r) :
    a = r.automaton ∧ Graph.IsOrder r.automaton.size r.automaton.silentTargets r.order := by
  obtain ⟨order, heq, rfl⟩ := new_eq_ok_iff.1 hr
  have horder := Automaton.silentOrder_spec ha
  rw [heq] at horder
  exact ⟨rfl, horder⟩

/-- The search finds the alignment of the best matching, if there is one. -/
theorem bestAlignment_cases (ha : r.automaton.WellFormed)
    (horder : Graph.IsOrder r.automaton.size r.automaton.silentTargets r.order)
    (tokens : List String) :
    (r.bestAlignment tokens = none ∧ ∀ m, ¬ r.IsMatching tokens m) ∨
      ∃ m, r.IsBest tokens m ∧
        r.bestAlignment tokens = some (m.alignment (r.cost tokens m.used)) := by
  have hbest := optimal_bestAlignment ha horder tokens
  generalize r.bestAlignment tokens = o at hbest
  rcases o with _ | found
  · exact .inl ⟨rfl, fun m hm => hbest _ _ (continues_iff_isMatching.2 ⟨m, hm, rfl, rfl⟩)⟩
  · obtain ⟨choices, hfound, hbest⟩ := hbest
    obtain ⟨m, hm, rfl, rfl⟩ := continues_iff_isMatching.1 hfound
    refine .inr ⟨m, ⟨hm, fun m' hm' => ?_⟩, rfl⟩
    rcases hbest _ _ (continues_iff_isMatching.2 ⟨m', hm', rfl, rfl⟩) with ⟨heq, _⟩ | hahead
    · exact .inl (hm'.eq_of_choices_eq hm heq)
    · exact .inr hahead

/-- Nothing is found exactly where there is no matching. -/
theorem bestAlignment_eq_none_iff (ha : r.automaton.WellFormed)
    (horder : Graph.IsOrder r.automaton.size r.automaton.silentTargets r.order) :
    r.bestAlignment tokens = none ↔ ∀ m, ¬ r.IsMatching tokens m := by
  rcases bestAlignment_cases ha horder tokens with ⟨hnone, hno⟩ | ⟨m, hm, hfound⟩
  · exact iff_of_true hnone hno
  · rw [hfound]
    exact iff_of_false (Option.some_ne_none _) fun hno => hno m hm.isMatching

/-- The best matching is the one that is found. -/
theorem IsBest.bestAlignment_eq (ha : r.automaton.WellFormed)
    (horder : Graph.IsOrder r.automaton.size r.automaton.silentTargets r.order)
    (h : r.IsBest tokens m) :
    r.bestAlignment tokens = some (m.alignment (r.cost tokens m.used)) := by
  rcases bestAlignment_cases ha horder tokens with ⟨-, hno⟩ | ⟨m', hm', hfound⟩
  · exact absurd h.isMatching (hno m)
  · obtain rfl := h.unique hm'
    exact hfound

/-- What is recognized in some words is what the best matching puts out. -/
theorem recognize_of_bestAlignment (htokens : tokens ≠ []) {found : Alignment}
    (h : r.bestAlignment tokens = some found) :
    r.recognize tokens =
      match Intent.ofSymbols found.output with
      | .ok intent =>
        ⟨{ intent with confidence := confidence found.cost tokens.length },
          some (r.diagnose tokens found.used)⟩
      | .error _ => ⟨.noMatch tokens, some (r.diagnose tokens [])⟩ := by
  have hempty : tokens.isEmpty = false := by simpa using htokens
  rw [recognize, h]
  simp only [hempty, Bool.false_eq_true, if_false, Option.map_some]
  cases Intent.ofSymbols found.output <;> rfl

/-! ### The matched words alone -/

/-- Which of two runs has the earlier choices depends only on the order of the places that the two
have for their words, one after another. -/
theorem choicesOf_lt_of_places {a : Automaton} {state stop stop' : Nat}
    {run run' used used' others others' : List Nat} {arcs arcs' : List Automaton.Arc}
    (h : a.Follows state run arcs stop) (h' : a.Follows state run' arcs' stop')
    (hused : used.length = (Utterance.ofArcs arcs).words.length)
    (hused' : used'.length = (Utterance.ofArcs arcs').words.length)
    (hothers : others.length = used.length) (hothers' : others'.length = used'.length)
    (hplaces : ∀ i x x' y y' : Nat, used[i]? = some x → used'[i]? = some x' →
      others[i]? = some y → others'[i]? = some y' → (x < x' → y < y') ∧ (x = x' → y = y'))
    (hlt : Matching.choicesOf run arcs used < Matching.choicesOf run' arcs' used') :
    Matching.choicesOf run arcs others < Matching.choicesOf run' arcs' others' := by
  induction h generalizing run' arcs' used used' others others' with
  | nil state =>
    rw [choicesOf_nil] at hlt ⊢
    cases h' with
    | nil => exact absurd hlt (List.lt_irrefl _)
    | cons first rest =>
      rw [choicesOf_cons]
      exact List.nil_lt_cons _ _
  | @cons state i stop arc run arcs first rest ih =>
    cases h' with
    | nil =>
      rw [choicesOf_nil] at hlt
      exact absurd hlt (List.not_lt_nil _)
    | @cons _ i' _ arc' run' arcs' first' rest' =>
      rw [choicesOf_cons, choicesOf_cons] at hlt ⊢
      rcases List.cons_lt_cons_iff.1 hlt with hi | ⟨rfl, hbehind⟩
      · exact List.cons_lt_cons_iff.2 (.inl hi)
      · -- The same arc is taken. When it consumes a word, then the place of the word decides next.
        cases Option.some.inj (first.symm.trans first')
        refine List.cons_lt_cons_iff.2 (.inr ⟨rfl, ?_⟩)
        rw [Utterance.ofArcs_cons, Utterance.words_append, Utterance.ofArc,
          List.length_append] at hused hused'
        cases hinput : arc.input with
        | none =>
          have hsilent := Automaton.Arc.isSilent_of_input_eq_none hinput
          rw [hinput, Option.toList_none, List.length_nil, Nat.zero_add] at hused hused'
          rw [if_pos hsilent, if_pos hsilent] at hbehind ⊢
          exact ih rest' hused hused' hothers hothers' hplaces hbehind
        | some word =>
          have hsilent := Automaton.Arc.not_isSilent_of_input_eq_some hinput
          rw [hinput, Option.toList_some, List.length_singleton, Nat.add_comm 1] at hused hused'
          rw [if_neg hsilent, if_neg hsilent] at hbehind ⊢
          obtain ⟨x, used, rfl⟩ := List.exists_cons_of_length_eq_add_one hused
          obtain ⟨x', used', rfl⟩ := List.exists_cons_of_length_eq_add_one hused'
          obtain ⟨y, others, rfl⟩ := List.exists_cons_of_length_eq_add_one hothers
          obtain ⟨y', others', rfl⟩ := List.exists_cons_of_length_eq_add_one hothers'
          obtain ⟨hless, hsame⟩ := hplaces 0 x x' y y' rfl rfl rfl rfl
          rcases List.cons_lt_cons_iff.1 hbehind with hxx' | ⟨rfl, hlater⟩
          · exact List.cons_lt_cons_iff.2 (.inl (hless hxx'))
          · refine List.cons_lt_cons_iff.2 (.inr ⟨hsame rfl, ?_⟩)
            exact ih rest' (Nat.succ.inj hused) (Nat.succ.inj hused') (Nat.succ.inj hothers)
              (Nat.succ.inj hothers') (fun i => hplaces (i + 1)) hlater

/-- As many words are matched as are consumed. -/
theorem IsMatching.length_used (h : r.IsMatching tokens m) : m.used.length = m.words.length := by
  have := congrArg List.length h.words
  rwa [List.length_map, List.length_map] at this

/-- The run of a matching consumes some word. -/
theorem IsMatching.words_ne_nil (h : r.IsMatching tokens m) : m.words ≠ [] := fun hnil => by
  have hlength := h.length_used
  rw [hnil] at hlength
  exact h.matched (List.length_eq_zero_iff.1 hlength)

/-- The words at the places of a matching are those that its run consumes. -/
theorem IsMatching.mem_words_iff (h : r.IsMatching tokens m) {word : String} :
    word ∈ m.words ↔ ∃ i ∈ m.used, tokens[i]? = some word := by
  have hmem : some word ∈ m.words.map some ↔ word ∈ m.words := by simp
  rw [← hmem, Matching.words, ← h.words, List.mem_map]

/-- The same places may be used for another run that consumes the same words. -/
theorem IsMatching.withRun (h : r.IsMatching tokens m) {run : List Nat}
    {arcs : List Automaton.Arc} (haccepts : r.automaton.Accepts run arcs)
    (hallowed : ∀ arc ∈ arcs, arc.isAllowed r.filter = true)
    (hwords : (Utterance.ofArcs arcs).words = m.words) :
    r.IsMatching tokens ⟨run, arcs, m.used⟩ :=
  ⟨haccepts, hallowed, h.increasing, by rw [h.words, hwords, Matching.words], h.matched,
    h.skippable⟩

/-- The words that a run consumes, taken alone, can be matched by it without costs, and only so. -/
theorem isMatching_alone_iff {words : List String} (hwords : words ≠ []) :
    r.IsMatching words m ∧ r.cost words m.used = 0 ↔
      r.automaton.Accepts m.run m.arcs ∧ (∀ arc ∈ m.arcs, arc.isAllowed r.filter = true) ∧
        m.words = words ∧ m.used = List.range' 0 words.length := by
  constructor
  · rintro ⟨hm, hcost⟩
    obtain ⟨stop, hrun, hfinal, hallowed, hassigned, -⟩ := isMatching_iff.1 hm
    have hpicks := picks_iff.2 ⟨hassigned, hcost.symm⟩
    exact ⟨⟨stop, hrun, hfinal⟩, hallowed, picks_zero_iff.1 hpicks⟩
  · rintro ⟨⟨stop, hrun, hfinal⟩, hallowed, hmatched, hused⟩
    obtain ⟨hassigned, hcost⟩ := picks_iff.1 (picks_zero_iff (r := r).2 ⟨hmatched, hused⟩)
    refine ⟨isMatching_iff.2 ⟨stop, hrun, hfinal, hallowed, hassigned, ?_⟩, hcost.symm⟩
    rw [hused]
    simpa [List.range'_eq_nil_iff] using hwords

/-- The best matching of some words is also the best one of the words that it matches. -/
theorem IsBest.alone (h : r.IsBest tokens m) :
    r.IsBest m.words ⟨m.run, m.arcs, List.range' 0 m.words.length⟩ := by
  have hlength := h.isMatching.length_used
  have hwords := h.isMatching.words_ne_nil
  obtain ⟨halone, hcost⟩ := (isMatching_alone_iff (r := r)
    (m := ⟨m.run, m.arcs, List.range' 0 m.words.length⟩) hwords).2
    ⟨h.isMatching.accepts, h.isMatching.allowed, rfl, rfl⟩
  refine ⟨halone, fun m' hm' => ?_⟩
  by_cases hzero : r.cost m.words m'.used = 0
  · obtain ⟨haccepts, hallowed, hsame, hused⟩ :=
      (isMatching_alone_iff hwords).1 ⟨hm', hzero⟩
    -- The other run can be matched in the places that the best matching has.
    obtain ⟨run, arcs, used⟩ := m'
    obtain rfl : used = _ := hused
    rcases h.preferred _ (h.isMatching.withRun haccepts hallowed hsame) with heq | hpref
    · obtain ⟨rfl, rfl⟩ : run = m.run ∧ arcs = m.arcs := by
        rw [← heq]
        exact ⟨rfl, rfl⟩
      exact .inl rfl
    · rcases hpref with hless | ⟨-, harcs⟩
      · exact absurd hless (Nat.lt_irrefl _)
      · refine .inr (.inr ⟨rfl, harcs.imp_right fun ⟨harcs, hlt⟩ => ⟨harcs, ?_⟩⟩)
        obtain ⟨stop, hrun, -⟩ := h.isMatching.accepts
        obtain ⟨stop', hrun', -⟩ := haccepts
        have hrange : (List.range' 0 m.words.length).length = m.used.length := by
          rw [List.length_range', hlength]
        -- Both runs have the same places, before and now.
        refine choicesOf_lt_of_places hrun hrun' hlength (hlength.trans ?_) hrange hrange ?_ hlt
        · exact congrArg List.length hsame.symm
        · intro i x x' y y' hx hx' hy hy'
          obtain rfl := Option.some.inj (hx.symm.trans hx')
          obtain rfl := Option.some.inj (hy.symm.trans hy')
          exact ⟨fun h => absurd h (Nat.lt_irrefl x), fun _ => rfl⟩
  · exact .inr (.inl (by rw [hcost]; exact Nat.pos_of_ne_zero hzero))

/-! ### Stop words -/

/-- A word that is matched is not a stop word. -/
def MatchesContent (r : FuzzyRecognizer) (tokens : List String) (m : Matching) : Prop :=
  ∃ i ∈ m.used, ∃ word, tokens[i]? = some word ∧ word ∉ r.leniency.stopWords

/-- In every match a word that is matched is not a stop word. -/
def RestsOnContent (r : FuzzyRecognizer) : Prop :=
  ∀ tokens m, (r.recognize tokens).isMatch = true → r.IsBest tokens m → r.MatchesContent tokens m

theorem IsMatching.matchesContent_iff (h : r.IsMatching tokens m) :
    r.MatchesContent tokens m ↔ ∃ word ∈ m.words, word ∉ r.leniency.stopWords := by
  constructor
  · rintro ⟨i, hi, word, hword, hstop⟩
    exact ⟨word, h.mem_words_iff.2 ⟨i, hi, hword⟩, hstop⟩
  · rintro ⟨word, hword, hstop⟩
    obtain ⟨i, hi, hword⟩ := h.mem_words_iff.1 hword
    exact ⟨i, hi, word, hword, hstop⟩

/-- What the recognitions of a recognizer rest on. -/
structure Rests (r : FuzzyRecognizer) : Prop where
  /-- A match is what the best matching puts out: at least one word is matched, and the use of the
  words is counted by the places that are matched. -/
  matching : ∀ tokens, (r.recognize tokens).isMatch = true → ∃ m intent, r.IsBest tokens m ∧
    m.words ≠ [] ∧ Intent.ofSymbols (Utterance.ofArcs m.arcs).output = .ok intent ∧
    r.recognize tokens =
      ⟨{ intent with confidence := confidence (r.cost tokens m.used) tokens.length },
        some (r.diagnose tokens m.used)⟩
  /-- Words without a matching are no match: there is no confidence and no entity. -/
  sentinel : ∀ tokens, (∀ m, ¬ r.IsMatching tokens m) →
    r.recognize tokens = ⟨.noMatch tokens, some (r.diagnose tokens [])⟩
  /-- Every match rests on another word than stop words exactly when stop words alone are never
  a match. -/
  content_iff : r.RestsOnContent ↔ ∀ tokens, (∀ word ∈ tokens, word ∈ r.leniency.stopWords) →
    (r.recognize tokens).isMatch = false

/-- What is recognized is known from the best matching. -/
theorem recognize_cases (ha : r.automaton.WellFormed)
    (horder : Graph.IsOrder r.automaton.size r.automaton.silentTargets r.order)
    (tokens : List String) :
    ((∀ m, ¬ r.IsMatching tokens m) ∧
        r.recognize tokens = ⟨.noMatch tokens, some (r.diagnose tokens [])⟩) ∨
      ∃ m, r.IsBest tokens m ∧ r.recognize tokens =
        match Intent.ofSymbols (Utterance.ofArcs m.arcs).output with
        | .ok intent =>
          ⟨{ intent with confidence := confidence (r.cost tokens m.used) tokens.length },
            some (r.diagnose tokens m.used)⟩
        | .error _ => ⟨.noMatch tokens, some (r.diagnose tokens [])⟩ := by
  rcases bestAlignment_cases ha horder tokens with ⟨hnone, hm⟩ | ⟨m, hm, hfound⟩
  · exact .inl ⟨hm, by simp [recognize, hnone]⟩
  · refine .inr ⟨m, hm, recognize_of_bestAlignment ?_ hfound⟩
    rintro rfl
    exact not_isMatching_nil hm.isMatching

/-- Whether there is a match depends only on what the best matching puts out. -/
theorem isMatch_iff_of_isBest (ha : r.automaton.WellFormed)
    (horder : Graph.IsOrder r.automaton.size r.automaton.silentTargets r.order)
    (hm : r.IsBest tokens m) :
    (r.recognize tokens).isMatch = true ↔
      ∃ intent, Intent.ofSymbols (Utterance.ofArcs m.arcs).output = .ok intent ∧
        intent.name.isSome = true := by
  rcases recognize_cases ha horder tokens with ⟨hnone, -⟩ | ⟨m', hm', heq⟩
  · exact absurd hm.isMatching (hnone m)
  · obtain rfl := hm.unique hm'
    rw [heq]
    cases Intent.ofSymbols (Utterance.ofArcs m.arcs).output with
    | error fault => simp [Recognition.isMatch_eq, Intent.noMatch]
    | ok intent => simp [Recognition.isMatch_eq]

/-- A match rests on other words than stop words unless its matched words alone are a match. -/
theorem restsOnContent_iff (ha : r.automaton.WellFormed)
    (horder : Graph.IsOrder r.automaton.size r.automaton.silentTargets r.order) :
    r.RestsOnContent ↔ ∀ tokens, (∀ word ∈ tokens, word ∈ r.leniency.stopWords) →
      (r.recognize tokens).isMatch = false := by
  constructor
  · intro h tokens hstop
    rw [← Bool.not_eq_true]
    intro hmatch
    rcases recognize_cases ha horder tokens with ⟨-, heq⟩ | ⟨m, hm, -⟩
    · rw [heq] at hmatch
      cases hmatch
    · -- The best matching would match a word of the input that is no stop word.
      obtain ⟨i, -, word, hword, hcontent⟩ := h tokens m hmatch hm
      exact hcontent (hstop word (List.mem_of_getElem? hword))
  · intro h tokens m hmatch hm
    rw [hm.isMatching.matchesContent_iff]
    by_contra hstop
    push Not at hstop
    -- The matched words are stop words, and the same run matches them alone.
    have halone := (isMatch_iff_of_isBest ha horder hm.alone).2
      ((isMatch_iff_of_isBest ha horder hm).1 hmatch)
    rw [h m.words hstop] at halone
    cases halone

/-- When all accepted runs decode, every match rests on another word than stop words exactly if
every run that consumes a word consumes such a word. -/
theorem restsOnContent_iff_of_decodes (ha : r.automaton.WellFormed)
    (horder : Graph.IsOrder r.automaton.size r.automaton.silentTargets r.order)
    (hdecodes : ∀ run arcs, r.automaton.Accepts run arcs → (Utterance.ofArcs arcs).Decodes) :
    r.RestsOnContent ↔ ∀ run arcs, r.automaton.Accepts run arcs →
      (∀ arc ∈ arcs, arc.isAllowed r.filter = true) → (Utterance.ofArcs arcs).words ≠ [] →
        ∃ word ∈ (Utterance.ofArcs arcs).words, word ∉ r.leniency.stopWords := by
  rw [restsOnContent_iff ha horder]
  constructor
  · intro h run arcs haccepts hallowed hwords
    by_contra hstop
    push Not at hstop
    -- The words of such a run can be matched by it, so something is found in them.
    have hm := ((isMatching_alone_iff (r := r) (m := ⟨run, arcs, _⟩) hwords).2
      ⟨haccepts, hallowed, rfl, rfl⟩).1
    rcases bestAlignment_cases ha horder (Utterance.ofArcs arcs).words with
      ⟨-, hnone⟩ | ⟨best, -, hfound⟩
    · exact hnone _ hm
    · have hbest := optimal_bestAlignment ha horder (Utterance.ofArcs arcs).words
      have hmatch := (faithful_of_decodes hdecodes hbest).isMatch_iff.2 ⟨hwords, _, hfound⟩
      rw [h _ hstop] at hmatch
      cases hmatch
  · intro h tokens hstop
    rcases recognize_cases ha horder tokens with ⟨-, heq⟩ | ⟨m, hm, -⟩
    · rw [heq]
      rfl
    · obtain ⟨word, hword, hcontent⟩ :=
        h m.run m.arcs hm.isMatching.accepts hm.isMatching.allowed hm.isMatching.words_ne_nil
      obtain ⟨i, -, htoken⟩ := hm.isMatching.mem_words_iff.1 hword
      exact absurd (hstop word (List.mem_of_getElem? htoken)) hcontent

/-- What a match rests on. In a well-formed automaton for which there is a recognizer, a match is
what the best matching puts out, which matches at least one word; where no word can be matched, all
is left as it is, with no confidence. A matched word may be a stop word: that every match has
another word than stop words holds exactly when stop words alone are never a match. -/
theorem rests_of_new {a : Automaton} (ha : a.WellFormed) {leniency : Leniency}
    {filter : Option WordSet} (hr : FuzzyRecognizer.new a leniency filter = .ok r) : r.Rests := by
  obtain ⟨rfl, horder⟩ := isOrder_of_new ha hr
  refine ⟨fun tokens hmatch => ?_, fun tokens hnone => ?_, restsOnContent_iff ha horder⟩
  · rcases recognize_cases ha horder tokens with ⟨-, heq⟩ | ⟨m, hm, heq⟩
    · rw [heq] at hmatch
      cases hmatch
    · obtain ⟨intent, hdecode, -⟩ := (isMatch_iff_of_isBest ha horder hm).1 hmatch
      rw [hdecode] at heq
      exact ⟨m, intent, hm, hm.isMatching.words_ne_nil, hdecode, heq⟩
  · rcases recognize_cases ha horder tokens with ⟨-, heq⟩ | ⟨m, hm, -⟩
    · exact heq
    · exact absurd hm.isMatching (hnone m)

/-- An intent whose only word is a stop word. This word alone is a match, so not every match rests
on another word. -/
theorem rests_of_new_stop : ∃ a r,
    a = mergeIntents [("A", .ofArc (some "the") (some (.word "the")))] ∧
    FuzzyRecognizer.new a ⟨.ofList ["the"], none, false⟩ none = .ok r ∧ r.Rests ∧
    (r.recognize ["the"]).isMatch = true ∧ ¬ r.RestsOnContent := by
  have hwf := (Automaton.spells_union <| .cons
    ((Automaton.spells_ofArc (some "the") (some (.word "the"))).wrap (.openIntent "A") .closeIntent)
    .nil).tidy.wellFormed
  have hfound : (FuzzyRecognizer.new
      (mergeIntents [("A", .ofArc (some "the") (some (.word "the")))])
      ⟨.ofList ["the"], none, false⟩ none).toOption.any (fun r =>
        r.leniency.stopWords.contains "the" && (r.recognize ["the"]).isMatch) = true := by
    decide +kernel
  cases hr : FuzzyRecognizer.new (mergeIntents [("A", .ofArc (some "the") (some (.word "the")))])
      ⟨.ofList ["the"], none, false⟩ none with
  | error e =>
    rw [hr] at hfound
    cases hfound
  | ok r =>
    rw [hr] at hfound
    obtain ⟨hstop, hmatch⟩ := Bool.and_eq_true_iff.1 hfound
    have hrests := rests_of_new hwf hr
    refine ⟨_, r, rfl, hr, hrests, hmatch, fun hcontent => ?_⟩
    have hnone := hrests.content_iff.1 hcontent ["the"]
      (List.forall_mem_singleton.2 (WordSet.contains_eq_true_iff.1 hstop))
    exact Bool.false_ne_true (hnone.symm.trans hmatch)

end FuzzyRecognizer

end Phrasebook
