import Phrasebook.Proofs.Recognition.Leniency
import Phrasebook.Proofs.Recognition.Permutation
import Phrasebook.Proofs.Recognition.Priority

/-!
# Words that no run can consume

A strict recognizer can drop the words outside of the vocabulary before it looks for a run. A run
that consumes all words of an input consumes words of the vocabulary only, so nothing is dropped
from an input that is matched as it is. Only the words that are kept decide what is found. Fuzzy
recognition that may skip all words could match the kept words as well, each in its place, and
skipping the others costs at most ten for each.

* `AgreeWithin`: two inputs which differ only in words outside of a vocabulary.
* `StrictRecognizer.mem_vocabulary_of_findPath`: words that are matched are in the vocabulary.
* `StrictRecognizer.recognize_of_kept_eq`: what is recognized depends on the kept words.
* `FuzzyRecognizer.exists_picks_filter`: some words of an input are matched where they stand.
* `StrictRecognizer.dropping_conservative`: what dropping changes, and what fuzzy recognition finds.
-/

namespace Phrasebook

/-- Two inputs agree within a vocabulary: words outside of it are put in or left out anywhere. -/
inductive AgreeWithin (vocabulary : WordSet) : List String → List String → Prop
  /-- There are no words. -/
  | nil : AgreeWithin vocabulary [] []
  /-- A word stays. -/
  | keep (word : String) {tokens tokens' : List String}
    (rest : AgreeWithin vocabulary tokens tokens') :
    AgreeWithin vocabulary (word :: tokens) (word :: tokens')
  /-- A word is put in. -/
  | insert {word : String} {tokens tokens' : List String} (unknown : word ∉ vocabulary)
    (rest : AgreeWithin vocabulary tokens tokens') :
    AgreeWithin vocabulary tokens (word :: tokens')
  /-- A word is left out. -/
  | remove {word : String} {tokens tokens' : List String} (unknown : word ∉ vocabulary)
    (rest : AgreeWithin vocabulary tokens tokens') :
    AgreeWithin vocabulary (word :: tokens) tokens'

theorem AgreeWithin.filter_eq {vocabulary : WordSet} {tokens tokens' : List String}
    (h : AgreeWithin vocabulary tokens tokens') :
    tokens.filter vocabulary.contains = tokens'.filter vocabulary.contains := by
  have hdropped : ∀ {word}, word ∉ vocabulary → ¬ vocabulary.contains word = true :=
    fun hword hmem => hword (WordSet.contains_eq_true_iff.1 hmem)
  induction h with
  | nil => rfl
  | keep word _ ih => rw [List.filter_cons, List.filter_cons, ih]
  | insert unknown _ ih => rw [List.filter_cons_of_neg (hdropped unknown), ih]
  | remove unknown _ ih => rw [List.filter_cons_of_neg (hdropped unknown), ih]

/-! ### What is kept -/

namespace StrictRecognizer

variable {a : Automaton} {r : StrictRecognizer} {dropUnknown dropUnknown' : Bool} {filter : Option WordSet}
  {tokens tokens' : List String}

/-- Whether words are dropped makes no difference to the search. -/
theorem search_withDropUnknown {n width : Nat} {todo : List Visit} {seen : Marks n} :
    { r with dropUnknown }.search width todo seen = r.search width todo seen := by
  fun_induction r.search width todo seen with
  | case1 => rw [search]
  | case2 seen v rest hnew hstop => rw [search, if_pos hnew, if_pos hstop]
  | case3 seen v rest hnew hstop next ih =>
    rw [search, if_pos hnew, if_neg hstop]
    exact ih
  | case4 seen v rest hold ih =>
    rw [search, if_neg hold]
    exact ih

/-- Words that are matched are in the vocabulary. -/
theorem mem_vocabulary_of_findPath (ha : a.WellFormed) {output : List Symbol}
    (h : (new a dropUnknown filter).findPath tokens = some output) {word : String}
    (hword : word ∈ tokens) : word ∈ a.vocabulary := by
  obtain ⟨run, arcs, ⟨⟨stop, hrun, -⟩, -, rfl⟩, -⟩ := exists_finishes_of_findPath h
  exact (Automaton.mem_vocabulary_iff ha).2 ⟨run, arcs, stop, hrun, hword⟩

theorem findPath_new_eq :
    (new a dropUnknown' filter).findPath tokens = (new a dropUnknown filter).findPath tokens :=
  search_withDropUnknown (r := new a dropUnknown filter)

/-- What is recognized depends on the kept words, up to the words that are given back when nothing
is. -/
theorem recognize_of_kept_eq
    (h : (new a dropUnknown' filter).kept tokens' = (new a dropUnknown filter).kept tokens) :
    (new a dropUnknown' filter).recognize tokens' = (new a dropUnknown filter).recognize tokens ∨
      (new a dropUnknown' filter).recognize tokens' = ⟨.noMatch tokens', none⟩ ∧
        (new a dropUnknown filter).recognize tokens = ⟨.noMatch tokens, none⟩ := by
  have hfind : (new a dropUnknown' filter).findPath ((new a dropUnknown filter).kept tokens) =
      (new a dropUnknown filter).findPath ((new a dropUnknown filter).kept tokens) :=
    findPath_new_eq
  simp only [recognize, h, hfind]
  generalize Option.map Intent.ofSymbols _ = found
  cases found with
  | none => exact .inr ⟨rfl, rfl⟩
  | some decoded =>
    cases decoded with
    | ok intent => exact .inl rfl
    | error fault => exact .inr ⟨rfl, rfl⟩

theorem isMatch_noMatch (tokens : List String) :
    Recognition.isMatch ⟨.noMatch tokens, none⟩ = false := by
  simp [Recognition.isMatch_eq, Intent.noMatch]

/-- Inputs that agree within the vocabulary are matched alike. -/
theorem recognize_of_agreeWithin (h : AgreeWithin a.vocabulary tokens tokens') :
    ((new a true filter).recognize tokens').isMatch =
        ((new a true filter).recognize tokens).isMatch ∧
      (((new a true filter).recognize tokens).isMatch = true →
        (new a true filter).recognize tokens' = (new a true filter).recognize tokens) := by
  have hkept : (new a true filter).kept tokens' = (new a true filter).kept tokens :=
    h.filter_eq.symm
  rcases recognize_of_kept_eq hkept with heq | ⟨heq', heq⟩
  · exact ⟨by rw [heq], fun _ => heq⟩
  · rw [heq', heq, isMatch_noMatch, isMatch_noMatch]
    exact ⟨rfl, nofun⟩

/-- Nothing is dropped from an input that is matched as it is. -/
theorem recognize_of_isMatch (ha : a.WellFormed)
    (h : ((new a false filter).recognize tokens).isMatch = true) :
    (new a true filter).recognize tokens = (new a false filter).recognize tokens := by
  have hkept : (new a true filter).kept tokens = (new a false filter).kept tokens := by
    apply List.filter_eq_self.2
    intro word hword
    cases hfind : (new a false filter).findPath tokens with
    | none =>
      -- Without a run there would be no match.
      have hnone : (new a false filter).recognize tokens = ⟨.noMatch tokens, none⟩ := by
        have hkept : (new a false filter).kept tokens = tokens := rfl
        simp [recognize, hkept, hfind]
      rw [hnone, isMatch_noMatch] at h
      cases h
    | some output =>
      exact WordSet.contains_eq_true_iff.2 (mem_vocabulary_of_findPath ha hfind hword)
  rcases recognize_of_kept_eq hkept with heq | ⟨heq', heq⟩
  · exact heq
  · exact heq'.trans heq.symm

end StrictRecognizer

/-! ### What is skipped instead -/

namespace FuzzyRecognizer

variable {r : FuzzyRecognizer} {tokens words : List String} {used : List Nat}

/-- The words of an input for which `p` holds are matched where they stand, when the others can be
skipped. -/
theorem exists_picks_filter (p : String → Bool)
    (hskip : ∀ word ∈ tokens, p word = false → (r.leniency.cost? word).isSome = true)
    (position : Nat) : ∃ used, ∃ cost ≤ Leniency.skipCost * tokens.countP fun word => !p word,
      Picks (r.input tokens) position (tokens.filter p) used cost := by
  induction tokens generalizing position with
  | nil => exact ⟨[], 0, Nat.zero_le _, .nil⟩
  | cons word tokens ih =>
    obtain ⟨hword, hskip⟩ := List.forall_mem_cons.1 hskip
    obtain ⟨used, cost, hle, hpicks⟩ := ih hskip (position + 1)
    cases hp : p word with
    | true =>
      rw [List.filter_cons_of_pos hp]
      exact ⟨position :: used, cost, by simpa [hp] using hle, .take hpicks⟩
    | false =>
      obtain ⟨c, hc⟩ := Option.isSome_iff_exists.1 (hword hp)
      have hcle := Leniency.cost?_le hc
      rw [List.filter_cons_of_neg (by simp [hp])]
      refine ⟨used, c + cost, ?_, .skip hc hpicks⟩
      rw [List.countP_cons_of_pos (by simp [hp]), Nat.mul_succ]
      omega

/-- Words that strict recognition matches are found in an input that has them in some places, and
at no higher cost than that of skipping the others. -/
theorem exists_found_of_picks (ha : r.automaton.WellFormed)
    (horder : Graph.IsOrder r.automaton.size r.automaton.silentTargets r.order)
    {dropUnknown : Bool} {output : List Symbol} {cost : Nat} (hwords : words ≠ [])
    (hfind : (StrictRecognizer.new r.automaton dropUnknown r.filter).findPath words = some output)
    (hpicks : Picks (r.input tokens) 0 words used cost) :
    ∃ found, r.bestAlignment tokens = some found ∧ found.cost ≤ cost := by
  obtain ⟨run, arcs, ⟨⟨stop, hrun, hfinal⟩, hallowed, rfl⟩, -⟩ :=
    StrictRecognizer.exists_finishes_of_findPath hfind
  obtain ⟨hassigned, rfl⟩ := picks_iff.1 hpicks
  have hused : used ≠ [] := by
    rintro rfl
    exact hwords (by simpa using hassigned.words.symm)
  have hmatching : r.IsMatching tokens ⟨run, arcs, used⟩ :=
    isMatching_iff.2 ⟨stop, hrun, hfinal, hallowed, hassigned, hused⟩
  rcases bestAlignment_cases ha horder tokens with ⟨-, hno⟩ | ⟨m, hm, hfound⟩
  · exact absurd hmatching (hno _)
  · exact ⟨_, hfound, hm.cost_le hmatching⟩

end FuzzyRecognizer

namespace StrictRecognizer

/-- Dropping words outside of the vocabulary changes no match, and such words may be put in or left
out without any difference to what is matched. When a run consumes exactly the words of an input
that are in the vocabulary, then fuzzy recognition that may skip unknown words finds an alignment of
the whole input, and it costs at most ten for each of the other words. -/
theorem dropping_conservative {a : Automaton} (ha : a.WellFormed)
    (hacyclic : ∀ state, ¬ Graph.OnCycle a.silentTargets state) (filter : Option WordSet)
    (tokens : List String) :
    (((new a false filter).recognize tokens).isMatch = true →
      (new a true filter).recognize tokens = (new a false filter).recognize tokens) ∧
    (∀ tokens', AgreeWithin a.vocabulary tokens tokens' →
      ((new a true filter).recognize tokens').isMatch =
          ((new a true filter).recognize tokens).isMatch ∧
        (((new a true filter).recognize tokens).isMatch = true →
          (new a true filter).recognize tokens' = (new a true filter).recognize tokens)) ∧
    ∀ stopWords known dropUnknown output, tokens.filter a.vocabulary.contains ≠ [] →
      (new a dropUnknown filter).findPath (tokens.filter a.vocabulary.contains) = some output →
      ∃ r found, FuzzyRecognizer.new a ⟨stopWords, known, true⟩ filter = .ok r ∧
        r.bestAlignment tokens = some found ∧
        found.cost ≤ 10 * tokens.countP fun word => word ∉ a.vocabulary := by
  refine ⟨recognize_of_isMatch ha, fun _ => recognize_of_agreeWithin, ?_⟩
  intro stopWords known dropUnknown output hkept hfind
  obtain ⟨order, heq, horder⟩ := Automaton.silentOrder_of_acyclic ha hacyclic
  let r : FuzzyRecognizer := ⟨a, order, ⟨stopWords, known, true⟩, filter⟩
  have hskip : ∀ word ∈ tokens, a.vocabulary.contains word = false →
      (r.leniency.cost? word).isSome = true :=
    fun _ _ _ => Leniency.isSome_cost?_iff.2 (.inr (.inr rfl))
  obtain ⟨used, cost, hle, hpicks⟩ := FuzzyRecognizer.exists_picks_filter _ hskip 0
  obtain ⟨found, hfound, hcost⟩ :=
    FuzzyRecognizer.exists_found_of_picks (r := r) ha horder hkept hfind hpicks
  refine ⟨r, found, FuzzyRecognizer.new_eq_ok_iff.2 ⟨order, heq, rfl⟩, hfound, ?_⟩
  have hcount : (tokens.countP fun word => !a.vocabulary.contains word) =
      tokens.countP fun word => word ∉ a.vocabulary :=
    List.countP_congr fun word _ => by simp [← WordSet.contains_eq_true_iff]
  rw [← hcount]
  exact Nat.le_trans hcost hle

/-- A word is matched between two others that no run consumes, both of which are dropped by strict
recognition and skipped by fuzzy recognition. -/
theorem dropping_conservative_please : ∃ a r found,
    a = (Automaton.ofArc (some "on") (some (.word "on"))).wrap (.openIntent "Light") .closeIntent ∧
    ((new a false none).recognize ["on"]).isMatch = true ∧
    (new a true none).recognize ["please", "on", "now"] = (new a false none).recognize ["on"] ∧
    FuzzyRecognizer.new a ⟨∅, some ∅, true⟩ none = .ok r ∧
    r.bestAlignment ["please", "on", "now"] = some found ∧ found.cost ≤ 20 := by
  have hspells := (Automaton.spells_ofArc (some "on") (some (.word "on"))).wrap
    (.openIntent "Light") .closeIntent
  obtain ⟨a, ha⟩ : ∃ a, a = (Automaton.ofArc (some "on") (some (.word "on"))).wrap
    (.openIntent "Light") .closeIntent := ⟨_, rfl⟩
  rw [← ha] at hspells
  have hwords : a.vocabulary.contains "on" = true ∧ a.vocabulary.contains "please" = false ∧
      a.vocabulary.contains "now" = false := by
    subst ha
    decide +kernel
  obtain ⟨hon, hplease, hnow⟩ := hwords
  have hrun : ∃ run arcs, a.Accepts run arcs ∧ (Utterance.ofArcs arcs).words = ["on"] := by
    subst ha
    exact ⟨[0, 0, 0], _, ⟨_, .cons rfl (.cons rfl (.cons rfl (.nil _))), rfl⟩, rfl⟩
  have hmatch : ((new a false none).recognize ["on"]).isMatch = true := by
    refine (isMatch_recognize_iff hspells ?_ (by simp)).2 hrun
    exact List.forall_mem_singleton.2 ⟨_, rfl, rfl, rfl⟩
  obtain ⟨run, arcs, hrun⟩ := hrun
  obtain ⟨output, hfind⟩ := (exists_findPath_iff (r := new a false none)
    hspells.tidy.wellFormed).2 ⟨run, arcs, finishes_new_iff.2 hrun⟩
  have hunknown : ∀ {word}, a.vocabulary.contains word = false → word ∉ a.vocabulary := by
    intro word h hmem
    rw [WordSet.contains_eq_true_iff.2 hmem] at h
    cases h
  have hagree : AgreeWithin a.vocabulary ["on"] ["please", "on", "now"] :=
    .insert (hunknown hplease) (.keep "on" (.insert (hunknown hnow) .nil))
  have hacyclic : ∀ state, ¬ Graph.OnCycle a.silentTargets state := fun state hcycle =>
    hspells.not_onCycle state (Automaton.onCycle_of_silent hcycle)
  obtain ⟨hsame, hdrop, -⟩ := dropping_conservative hspells.tidy.wellFormed hacyclic none ["on"]
  obtain ⟨-, -, hfuzzy⟩ :=
    dropping_conservative hspells.tidy.wellFormed hacyclic none ["please", "on", "now"]
  have hkept : ["please", "on", "now"].filter a.vocabulary.contains = ["on"] := by
    simp [hon, hplease, hnow]
  obtain ⟨r, found, hr, hfound, hcost⟩ := hfuzzy ∅ (some ∅) false output (by simp [hkept])
    (by rwa [hkept])
  have hequal := (hdrop _ hagree).2 (by rwa [hsame hmatch])
  refine ⟨a, r, found, ha, hmatch, hequal.trans (hsame hmatch), hr, hfound, ?_⟩
  have hcount : (["please", "on", "now"].countP fun word => word ∉ a.vocabulary) = 2 := by
    simp [← WordSet.contains_eq_true_iff, hon, hplease, hnow]
  rwa [hcount] at hcost

end StrictRecognizer

end Phrasebook
