import Mathlib.Algebra.Order.Field.Rat
import Mathlib.Tactic.Positivity
import Phrasebook.Proofs.Recognition.Accounting

/-!
# More leniency finds more

When more words are stop words, more words are known or unknown words may be skipped, then each
word that could be skipped still can, and costs no more. So a matching stays a matching and gets no
dearer. Another one may be the best then, but what is found costs no more than what was found
before.

* `Leniency.Eases`: a word that may be skipped still may be, at no higher cost.
* `Leniency.Extends.eases`: more stop words, more known words and skipping what is not known.
* `FuzzyRecognizer.IsMatching.ease`: a matching stays one.
* `FuzzyRecognizer.exactConfidence`: the confidence without rounding.
* `FuzzyRecognizer.finds_of_eases`: what a more lenient recognizer finds, in every automaton and in
  that of a compiled grammar.
-/

namespace Phrasebook

/-! ### Leniency -/

namespace Leniency

variable {l l' : Leniency} {word : String}

/-- When the word may be skipped, then it may be skipped with the other leniency as well, and costs
no more. -/
def Eases (l' l : Leniency) (word : String) : Prop :=
  ∀ c, l.cost? word = some c → ∃ c' ≤ c, l'.cost? word = some c'

/-- There are more stop words and more known words, or all words are known, and words that are not
known may be skipped if they could be before. -/
structure Extends (l' l : Leniency) : Prop where
  /-- Stop words remain stop words. -/
  stopWords : ∀ word ∈ l.stopWords, word ∈ l'.stopWords
  /-- Known words remain known. -/
  known : ∀ words, l'.known = some words →
    ∃ words', l.known = some words' ∧ ∀ word ∈ words', word ∈ words
  /-- Words that are not known may still be skipped. -/
  skipUnknown : l.skipUnknown = true → l'.skipUnknown = true

/-- Which words may be skipped. -/
theorem isSome_cost?_iff : (l.cost? word).isSome = true ↔
    word ∈ l.stopWords ∨ (∀ words, l.known = some words → word ∈ words) ∨
      l.skipUnknown = true := by
  have hknown : (l.known.map (·.contains word)).getD true = true ↔
      ∀ words, l.known = some words → word ∈ words := by
    cases l.known <;> simp
  rw [cost?, ← hknown, ← Bool.or_eq_true, ← WordSet.contains_eq_true_iff]
  split
  · next hstop => exact iff_of_true rfl (.inl hstop)
  · next hstop =>
    rw [or_iff_right hstop]
    split
    · next hskip => exact iff_of_true rfl hskip
    · next hskip => exact iff_of_false Bool.false_ne_true hskip

/-- Extending a leniency makes no word dearer. -/
theorem Extends.eases (h : l'.Extends l) (word : String) : l'.Eases l word := by
  intro c hc
  have hskip : (l'.cost? word).isSome = true := by
    rw [isSome_cost?_iff]
    rcases isSome_cost?_iff.1 (Option.isSome_of_eq_some hc) with hstop | hknown | hskip
    · exact .inl (h.stopWords word hstop)
    · refine .inr (.inl fun words hwords => ?_)
      obtain ⟨words', hwords', hsub⟩ := h.known words hwords
      exact hsub word (hknown words' hwords')
    · exact .inr (.inr (h.skipUnknown hskip))
  obtain ⟨c', hc'⟩ := Option.isSome_iff_exists.1 hskip
  refine ⟨c', ?_, hc'⟩
  rw [eq_of_cost? hc, eq_of_cost? hc']
  by_cases hstop : word ∈ l.stopWords
  · rw [if_pos hstop, if_pos (h.stopWords word hstop)]
  · rw [if_neg hstop]
    split
    · decide
    · exact Nat.le_refl _

end Leniency

namespace FuzzyRecognizer

variable {r : FuzzyRecognizer} {l' : Leniency} {tokens words : List String} {used : List Nat}
  {position cost : Nat} {m : Matching}

/-- The recognizer with another leniency. -/
def withLeniency (r : FuzzyRecognizer) (l' : Leniency) : FuzzyRecognizer :=
  { r with leniency := l' }

/-! ### Matchings -/

/-- Words are matched in the same places, and skipping the others costs no more. -/
theorem Picks.ease (h : Picks (r.input tokens) position words used cost)
    (hease : ∀ word ∈ tokens, l'.Eases r.leniency word) :
    ∃ cost' ≤ cost, Picks ((r.withLeniency l').input tokens) position words used cost' := by
  induction tokens generalizing position words used cost with
  | nil =>
    cases h
    exact ⟨0, Nat.le_refl 0, .nil⟩
  | cons word tokens ih =>
    obtain ⟨hword, hease⟩ := List.forall_mem_cons.1 hease
    cases h with
    | skip skippable later =>
      obtain ⟨c', hc', hskip⟩ := hword _ skippable
      obtain ⟨cost', hcost', hlater⟩ := ih later hease
      exact ⟨c' + cost', Nat.add_le_add hc' hcost', .skip hskip hlater⟩
    | take later =>
      obtain ⟨cost', hcost', hlater⟩ := ih later hease
      exact ⟨cost', hcost', .take hlater⟩

/-- A matching stays a matching and gets no dearer. -/
theorem IsMatching.ease (h : r.IsMatching tokens m)
    (hease : ∀ word ∈ tokens, l'.Eases r.leniency word) :
    (r.withLeniency l').IsMatching tokens m ∧
      (r.withLeniency l').cost tokens m.used ≤ r.cost tokens m.used := by
  obtain ⟨stop, hrun, hfinal, hallowed, hassigned, hmatched⟩ := isMatching_iff.1 h
  obtain ⟨cost', hle, hpicks⟩ := (picks_iff.2 ⟨hassigned, rfl⟩).ease hease
  obtain ⟨hassigned', rfl⟩ := picks_iff.1 hpicks
  exact ⟨isMatching_iff.2 ⟨stop, hrun, hfinal, hallowed, hassigned', hmatched⟩, hle⟩

/-- The best matching costs no more than any other one. -/
theorem IsBest.cost_le {m' : Matching} (h : r.IsBest tokens m) (h' : r.IsMatching tokens m') :
    r.cost tokens m.used ≤ r.cost tokens m'.used := by
  rcases h.preferred m' h' with rfl | hless | ⟨heq, -⟩
  · exact Nat.le_refl _
  · exact Nat.le_of_lt hless
  · exact Nat.le_of_eq heq

/-- Skipping words costs at most ten for each. -/
theorem IsMatching.cost_le (h : r.IsMatching tokens m) :
    r.cost tokens m.used ≤ Leniency.skipCost * tokens.length := by
  obtain ⟨others, hlength, hcost⟩ := h.exists_others
  rw [hcost, Leniency.skipCost, Leniency.stopWordCost]
  omega

/-! ### What is found -/

/-- The confidence that follows from the cost of what is found, without rounding: one for no cost
down to zero for skipping every word, and zero when nothing is found. -/
def exactConfidence (r : FuzzyRecognizer) (tokens : List String) : ℚ :=
  match r.bestAlignment tokens with
  | some found => 1 - found.cost / (Leniency.skipCost * tokens.length)
  | none => 0

/-- What one recognizer finds in some words, another one finds at no higher cost. -/
structure FindsAsCheaply (r' r : FuzzyRecognizer) (tokens : List String) : Prop where
  /-- Something is found that costs no more. -/
  found : ∀ found, r.bestAlignment tokens = some found →
    ∃ found', r'.bestAlignment tokens = some found' ∧ found'.cost ≤ found.cost
  /-- The confidence does not drop. -/
  confidence : r.exactConfidence tokens ≤ r'.exactConfidence tokens

/-- What one recognizer recognizes in some words, another one recognizes with no less
confidence. -/
structure RecognizesAsSurely (r' r : FuzzyRecognizer) (tokens : List String) : Prop
    extends r'.FindsAsCheaply r tokens where
  /-- A match stays a match. -/
  isMatch : (r.recognize tokens).isMatch = true → (r'.recognize tokens).isMatch = true
  /-- The confidence of a match is that of what is found. -/
  rounded : (r.recognize tokens).isMatch = true → ∃ found found',
    r.bestAlignment tokens = some found ∧ r'.bestAlignment tokens = some found' ∧
      (r.recognize tokens).intent.confidence =
        FuzzyRecognizer.confidence found.cost tokens.length ∧
      (r'.recognize tokens).intent.confidence =
        FuzzyRecognizer.confidence found'.cost tokens.length

section Eases

variable (ha : r.automaton.WellFormed)
  (horder : Graph.IsOrder r.automaton.size r.automaton.silentTargets r.order)

include ha horder

/-- When no word gets dearer, what was found is found at no higher cost. -/
theorem exists_found_of_eases (hease : ∀ word ∈ tokens, l'.Eases r.leniency word)
    {found : Alignment} (hfound : r.bestAlignment tokens = some found) :
    ∃ found', (r.withLeniency l').bestAlignment tokens = some found' ∧
      found'.cost ≤ found.cost := by
  rcases bestAlignment_cases ha horder tokens with ⟨hnone, -⟩ | ⟨m, hm, heq⟩
  · rw [hnone] at hfound
    cases hfound
  · obtain rfl := Option.some.inj (heq.symm.trans hfound)
    -- What was the best matching is still one, and the best one now is no dearer.
    obtain ⟨hmatching, hle⟩ := hm.isMatching.ease hease
    rcases bestAlignment_cases (r := r.withLeniency l') ha horder tokens with
      ⟨-, hno⟩ | ⟨best, hbest, heq'⟩
    · exact absurd hmatching (hno m)
    · exact ⟨_, heq', Nat.le_trans (hbest.cost_le hmatching) hle⟩

/-- The confidence without rounding is not negative. -/
theorem exactConfidence_nonneg : 0 ≤ r.exactConfidence tokens := by
  rw [exactConfidence]
  rcases bestAlignment_cases ha horder tokens with ⟨hnone, -⟩ | ⟨m, hm, hfound⟩
  · rw [hnone]
  · rw [hfound]
    have hle : ((m.alignment (r.cost tokens m.used)).cost : ℚ) ≤
        Leniency.skipCost * tokens.length := by
      exact_mod_cast hm.isMatching.cost_le
    exact sub_nonneg.2 (div_le_one_of_le₀ hle (by positivity))

/-- A recognizer in which no word of the input is dearer finds as much. -/
theorem findsAsCheaply_of_eases (hease : ∀ word ∈ tokens, l'.Eases r.leniency word) :
    (r.withLeniency l').FindsAsCheaply r tokens := by
  refine ⟨fun found => exists_found_of_eases ha horder hease, ?_⟩
  cases hfound : r.bestAlignment tokens with
  | none =>
    rw [exactConfidence, hfound]
    exact exactConfidence_nonneg (r := r.withLeniency l') ha horder
  | some found =>
    obtain ⟨found', hfound', hle⟩ := exists_found_of_eases ha horder hease hfound
    rw [exactConfidence, hfound, exactConfidence, hfound']
    have hle : (found'.cost : ℚ) ≤ found.cost := by exact_mod_cast hle
    exact sub_le_sub_left (div_le_div_of_nonneg_right hle (by positivity)) 1

/-- Where both recognize what they find, the match remains. -/
theorem recognizesAsSurely_of_eases (hease : ∀ word ∈ tokens, l'.Eases r.leniency word)
    (hfaithful : r.Faithful tokens) (hfaithful' : (r.withLeniency l').Faithful tokens) :
    (r.withLeniency l').RecognizesAsSurely r tokens := by
  have hfound : (r.recognize tokens).isMatch = true → tokens ≠ [] ∧
      ∃ found found', r.bestAlignment tokens = some found ∧
        (r.withLeniency l').bestAlignment tokens = some found' := by
    intro hmatch
    obtain ⟨htokens, found, hfound⟩ := hfaithful.isMatch_iff.1 hmatch
    obtain ⟨found', hfound', -⟩ := exists_found_of_eases ha horder hease hfound
    exact ⟨htokens, found, found', hfound, hfound'⟩
  refine ⟨findsAsCheaply_of_eases ha horder hease, fun hmatch => ?_, fun hmatch => ?_⟩
  · obtain ⟨htokens, _, found', -, hfound'⟩ := hfound hmatch
    exact hfaithful'.isMatch_iff.2 ⟨htokens, found', hfound'⟩
  · obtain ⟨htokens, found, found', hfound, hfound'⟩ := hfound hmatch
    obtain ⟨intent, -, heq, -⟩ := hfaithful.recognize_eq found htokens hfound
    obtain ⟨intent', -, heq', -⟩ := hfaithful'.recognize_eq found' htokens hfound'
    exact ⟨found, found', hfound, hfound', by rw [heq], by rw [heq']⟩

end Eases

/-- Leniency is monotone. With another leniency, under which no word of an input that could be
skipped is dearer, everything that was found is found at no higher cost. This holds in every
automaton in which no state leads back to itself over arcs that consume nothing, and with every
filter. In the automaton of a compiled grammar, each match stays a match then, and the confidence
without rounding does not drop. Such are all leniencies with more stop words, more known words or
skipping of what is not known. -/
theorem finds_of_eases (l l' : Leniency) (filter : Option WordSet) :
    (l'.Extends l → ∀ word, l'.Eases l word) ∧
    (∀ a : Automaton, a.WellFormed → (∀ state, ¬ Graph.OnCycle a.silentTargets state) →
      ∃ r r', FuzzyRecognizer.new a l filter = .ok r ∧ FuzzyRecognizer.new a l' filter = .ok r' ∧
        ∀ tokens, (∀ word ∈ tokens, l'.Eases l word) → r'.FindsAsCheaply r tokens) ∧
    ∀ allowed text grammar casing slots compiled, Grammar.ofTextWith allowed text = .ok grammar →
      Slots.Defined slots → grammar.compile casing slots = .ok compiled →
      ∃ r r', FuzzyRecognizer.new compiled.merged l filter = .ok r ∧
        FuzzyRecognizer.new compiled.merged l' filter = .ok r' ∧
        ∀ tokens, (∀ word ∈ tokens, l'.Eases l word) → r'.RecognizesAsSurely r tokens := by
  refine ⟨Leniency.Extends.eases, fun a ha hacyclic => ?_,
    fun allowed text grammar casing slots compiled hgrammar hslots hcompile => ?_⟩
  · obtain ⟨order, heq, horder⟩ := Automaton.silentOrder_of_acyclic ha hacyclic
    let r : FuzzyRecognizer := ⟨a, order, l, filter⟩
    exact ⟨r, r.withLeniency l', new_eq_ok_iff.2 ⟨order, heq, rfl⟩,
      new_eq_ok_iff.2 ⟨order, heq, rfl⟩, fun tokens => findsAsCheaply_of_eases (r := r) ha horder⟩
  · have hdecodes := Grammar.decodes_of_compile hgrammar hslots hcompile
    obtain ⟨us, hspells, -⟩ := Grammar.spells_merged hgrammar hslots hcompile
    obtain ⟨order, heq, horder⟩ := hspells.exists_silentOrder
    obtain ⟨r, hr, hfaithful⟩ := hdecodes.fuzzy l filter
    obtain ⟨r', hr', hfaithful'⟩ := hdecodes.fuzzy l' filter
    refine ⟨r, r', hr, hr', fun tokens hease => ?_⟩
    -- Both recognizers have the states in the same order.
    obtain rfl := Except.ok.inj (hr.symm.trans (new_eq_ok_iff.2 ⟨order, heq, rfl⟩))
    obtain rfl := Except.ok.inj (hr'.symm.trans (new_eq_ok_iff.2 ⟨order, heq, rfl⟩))
    exact recognizesAsSurely_of_eases hspells.tidy.wellFormed horder hease (hfaithful tokens)
      (hfaithful' tokens)

/-- Two more words become stop words: words that could be skipped before, in a single word and in a
grammar, of which one phrase has such a word itself. -/
theorem finds_of_eases_polite : ∃ l l', l = Leniency.mk ∅ none false ∧
    l' = Leniency.mk (.ofList ["please", "the"]) none false ∧ l'.Extends l ∧
    (∃ r r', FuzzyRecognizer.new (.ofArc (some "hello") none) l none = .ok r ∧
      FuzzyRecognizer.new (.ofArc (some "hello") none) l' none = .ok r' ∧
      ∀ tokens, r'.FindsAsCheaply r tokens) ∧
    ∃ grammar slots compiled r r',
      Grammar.ofTextWith none "[Light]\nturn on the light\n[Time]\nwhat time is it" = .ok grammar ∧
      Slots.Defined slots ∧ grammar.compile .lower slots = .ok compiled ∧
      FuzzyRecognizer.new compiled.merged l none = .ok r ∧
      FuzzyRecognizer.new compiled.merged l' none = .ok r' ∧
      ∀ tokens, r'.RecognizesAsSurely r tokens := by
  obtain ⟨heases, hall, hcompiled⟩ := finds_of_eases ⟨∅, none, false⟩
    ⟨.ofList ["please", "the"], none, false⟩ none
  have hextends : Leniency.Extends ⟨.ofList ["please", "the"], none, false⟩ ⟨∅, none, false⟩ :=
    ⟨fun word hword => absurd hword WordSet.not_mem_empty, nofun, id⟩
  refine ⟨_, _, rfl, rfl, hextends, ?_, ?_⟩
  · have hspells := Automaton.spells_ofArc (some "hello") none
    obtain ⟨r, r', hr, hr', hfinds⟩ := hall _ hspells.tidy.wellFormed fun state hcycle =>
      hspells.not_onCycle state (Automaton.onCycle_of_silent hcycle)
    exact ⟨r, r', hr, hr', fun tokens => hfinds tokens fun word _ => heases hextends word⟩
  · obtain ⟨grammar, slots, compiled, hgrammar, hslots, hcompile, -⟩ := @Grammar.exists_compile
      "[Light]\nturn on the light\n[Time]\nwhat time is it" "room" ["hall"] .lower
      (fun _ _ => true) (by decide +kernel)
    obtain ⟨r, r', hr, hr', hrecognizes⟩ :=
      hcompiled none _ grammar .lower slots compiled hgrammar hslots hcompile
    exact ⟨grammar, slots, compiled, r, r', hgrammar, hslots, hcompile, hr, hr', fun tokens =>
      hrecognizes tokens fun word _ => heases hextends word⟩

end FuzzyRecognizer

end Phrasebook
