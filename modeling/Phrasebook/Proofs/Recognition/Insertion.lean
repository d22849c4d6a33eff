import Phrasebook.Proofs.Recognition.StopWords

/-!
# Words that no run consumes

A word that no arc consumes can only be skipped, wherever it stands. So the matchings with such a
word are those without it, in which the words behind it have moved by one place. They keep their
order of preference, as all of them cost the same more. When the word cannot be skipped, there is
no matching at all.

* `displace`: the places of words when one more word is put among them.
* `FuzzyRecognizer.Picks.insert`, `FuzzyRecognizer.Picks.exists_of_insert`: matched words with one
  more word, and without it.
* `FuzzyRecognizer.Preferred.displaced`: moving words keeps the order of preference.
* `FuzzyRecognizer.IsBest.insert`: the best matching with one more word.
* `FuzzyRecognizer.bestAlignment_insert`: what is found with one more word.
-/

namespace Phrasebook

/-- Where a word comes to stand when another one is put before the word at `place`. -/
def displace (place position : Nat) : Nat := if position < place then position else position + 1

theorem displace_of_lt {place position : Nat} (h : position < place) :
    displace place position = position := if_pos h

theorem displace_of_le {place position : Nat} (h : place ≤ position) :
    displace place position = position + 1 := if_neg (Nat.not_lt.2 h)

/-- Words keep their order. -/
theorem displace_lt {place i j : Nat} (h : i < j) : displace place i < displace place j := by
  unfold displace
  split <;> split <;> omega

/-- The matching whose words have moved. -/
def Matching.displaced (place : Nat) (m : Matching) : Matching :=
  { m with used := m.used.map (displace place) }

/-- The alignment when one more word is skipped, which stands at `place`. -/
def Alignment.insert (place cost : Nat) (a : Alignment) : Alignment :=
  { a with
    cost := cost + a.cost
    used := a.used.map (displace place) }

namespace FuzzyRecognizer

variable {r : FuzzyRecognizer} {rest before after : List InputToken} {token : InputToken}
  {place position cost c : Nat} {words : List String} {used : List Nat}

/-! ### Words that are matched -/

/-- All words behind the place move by one. -/
theorem Picks.displaced (h : Picks rest position words used cost) (hplace : place ≤ position) :
    Picks rest (position + 1) words (used.map (displace place)) cost := by
  induction h with
  | nil => exact .nil
  | skip skippable _ ih => exact .skip skippable (ih (Nat.le_succ_of_le hplace))
  | take _ ih =>
    rw [List.map_cons, displace_of_le hplace]
    exact .take (ih (Nat.le_succ_of_le hplace))

/-- Words behind the place have moved there from one place before. -/
theorem Picks.exists_of_displaced (h : Picks rest (position + 1) words used cost)
    (hplace : place ≤ position) :
    ∃ used', used = used'.map (displace place) ∧
      Picks rest position words used' cost := by
  generalize hnext : position + 1 = next at h
  induction h generalizing position with
  | nil => exact ⟨[], rfl, .nil⟩
  | skip skippable _ ih =>
    subst hnext
    obtain ⟨used', rfl, hlater⟩ := ih (Nat.le_succ_of_le hplace) rfl
    exact ⟨used', rfl, .skip skippable hlater⟩
  | take _ ih =>
    subst hnext
    obtain ⟨used', rfl, hlater⟩ := ih (Nat.le_succ_of_le hplace) rfl
    exact ⟨position :: used', by rw [List.map_cons, displace_of_le hplace], .take hlater⟩

/-- One more word is skipped. -/
theorem Picks.insert (h : Picks (before ++ after) position words used cost)
    (hskip : token.cost? = some c) :
    Picks (before ++ token :: after) position words
      (used.map (displace (position + before.length))) (c + cost) := by
  induction before generalizing position words used cost with
  | nil => exact .skip hskip (h.displaced (Nat.le_refl _))
  | cons first before ih =>
    have hplace : position + (first :: before).length = position + 1 + before.length := by
      rw [List.length_cons]
      omega
    rw [hplace]
    cases h with
    | @skip _ _ _ d e _ _ skippable later =>
      -- The costs of the two words are added the other way round.
      rw [Nat.add_left_comm]
      exact .skip skippable (ih later)
    | @take _ _ _ _ words used later =>
      rw [List.map_cons, displace_of_lt (by omega)]
      exact .take (ih later)

/-- A word that is not matched can be left out. -/
theorem Picks.exists_of_insert (h : Picks (before ++ token :: after) position words used cost)
    (hword : token.word ∉ words) :
    ∃ c used' cost', token.cost? = some c ∧
      used = used'.map (displace (position + before.length)) ∧ cost = c + cost' ∧
      Picks (before ++ after) position words used' cost' := by
  induction before generalizing position words used cost with
  | nil =>
    cases h with
    | skip skippable later =>
      obtain ⟨used', rfl, hlater⟩ := later.exists_of_displaced (Nat.le_refl position)
      exact ⟨_, used', _, skippable, rfl, rfl, hlater⟩
    | take later => exact absurd List.mem_cons_self hword
  | cons first before ih =>
    have hplace : position + (first :: before).length = position + 1 + before.length := by
      rw [List.length_cons]
      omega
    rw [hplace]
    cases h with
    | @skip _ _ _ d e _ _ skippable later =>
      obtain ⟨c, used', cost', hskip, rfl, rfl, hrest⟩ := ih later hword
      exact ⟨c, used', d + cost', hskip, rfl, Nat.add_left_comm d c cost', .skip skippable hrest⟩
    | @take _ _ _ _ words used later =>
      rw [List.mem_cons, not_or] at hword
      obtain ⟨c, used', cost', hskip, rfl, rfl, hrest⟩ := ih later hword.2
      refine ⟨c, position :: used', cost', hskip, ?_, rfl, .take hrest⟩
      rw [List.map_cons, displace_of_lt (by omega)]

/-! ### Matchings with one more word -/

section Insert

variable {before after : List String} {word : String} {m m' : Matching}

theorem input_insert : r.input (before ++ word :: after) =
    r.input before ++ ⟨word, r.leniency.cost? word⟩ :: r.input after := by
  rw [input, List.map_append, List.map_cons]
  rfl

/-- A matching without the word is one with it, when the word can be skipped, and costs as much
more as the word does. -/
theorem IsMatching.insert (h : r.IsMatching (before ++ after) m)
    (hskip : r.leniency.cost? word = some c) :
    r.IsMatching (before ++ word :: after) (m.displaced before.length) ∧
      r.cost (before ++ word :: after) (m.displaced before.length).used =
        c + r.cost (before ++ after) m.used := by
  obtain ⟨stop, hrun, hfinal, hallowed, hassigned, hmatched⟩ := isMatching_iff.1 h
  have hpicks := picks_iff.2 ⟨hassigned, rfl⟩
  rw [input, List.map_append] at hpicks
  have htoken : (InputToken.mk word (r.leniency.cost? word)).cost? = some c := hskip
  have hinsert := hpicks.insert htoken
  rw [List.length_map, Nat.zero_add] at hinsert
  obtain ⟨hassigned', hcost⟩ := picks_iff.1 (input_insert ▸ hinsert)
  refine ⟨isMatching_iff.2 ⟨stop, hrun, hfinal, hallowed, hassigned', ?_⟩, hcost.symm⟩
  simpa [Matching.displaced] using hmatched

/-- A run consumes only words of arcs. -/
theorem IsMatching.not_mem_words {tokens : List String} (h : r.IsMatching tokens m)
    (hword : ∀ state, ∀ arc ∈ r.automaton.arcs state, arc.input ≠ some word) :
    word ∉ (Utterance.ofArcs m.arcs).words := by
  intro hmem
  obtain ⟨stop, hrun, -⟩ := h.accepts
  obtain ⟨state, -, arc, harc, hinput⟩ := hrun.exists_arc_of_mem hmem
  exact hword state arc harc hinput

/-- A matching with a word that no arc consumes is one without it, and the word can be skipped. -/
theorem IsMatching.exists_of_insert (h : r.IsMatching (before ++ word :: after) m')
    (hword : ∀ state, ∀ arc ∈ r.automaton.arcs state, arc.input ≠ some word) :
    ∃ m, r.IsMatching (before ++ after) m ∧ m' = m.displaced before.length ∧
      (r.leniency.cost? word).isSome = true := by
  obtain ⟨stop, hrun, hfinal, hallowed, hassigned, hmatched⟩ := isMatching_iff.1 h
  have hpicks := picks_iff.2 ⟨hassigned, rfl⟩
  rw [input_insert] at hpicks
  obtain ⟨c, used, cost, hskip, hused, -, hrest⟩ :=
    hpicks.exists_of_insert (h.not_mem_words hword)
  rw [input, List.length_map, Nat.zero_add] at hused
  have hinput : r.input before ++ r.input after = r.input (before ++ after) :=
    List.map_append.symm
  obtain ⟨hassigned', -⟩ := picks_iff.1 (hinput ▸ hrest)
  refine ⟨⟨m'.run, m'.arcs, used⟩, isMatching_iff.2 ⟨stop, hrun, hfinal, hallowed, hassigned', ?_⟩,
    ?_, Option.isSome_iff_exists.2 ⟨c, hskip⟩⟩
  · rintro rfl
    exact hmatched hused
  · rw [Matching.displaced, ← hused]

/-- Words that have moved keep the order of preference, when all matchings cost the same more. -/
theorem Preferred.displaced {tokens tokens' : List String} (hm : r.IsMatching tokens m)
    (hm' : r.IsMatching tokens m')
    (hcost : r.cost tokens' (m.displaced place).used = c + r.cost tokens m.used)
    (hcost' : r.cost tokens' (m'.displaced place).used = c + r.cost tokens m'.used)
    (h : r.Preferred tokens m m') :
    r.Preferred tokens' (m.displaced place) (m'.displaced place) := by
  unfold Preferred at h ⊢
  rw [hcost, hcost']
  rcases h with hless | ⟨hsame, harcs | ⟨harcs, hchoices⟩⟩
  · exact .inl (Nat.add_lt_add_left hless c)
  · exact .inr ⟨by rw [hsame], .inl harcs⟩
  · obtain ⟨stop, hrun, -⟩ := hm.accepts
    obtain ⟨stop', hrun', -⟩ := hm'.accepts
    refine .inr ⟨by rw [hsame], .inr ⟨harcs, ?_⟩⟩
    refine choicesOf_lt_of_places hrun hrun' hm.length_used hm'.length_used (List.length_map _)
      (List.length_map _) (fun i x x' y y' hx hx' hy hy' => ?_) hchoices
    rw [Matching.displaced, List.getElem?_map, hx] at hy
    rw [Matching.displaced, List.getElem?_map, hx'] at hy'
    obtain rfl := Option.some.inj hy
    obtain rfl := Option.some.inj hy'
    exact ⟨displace_lt, congrArg (displace place)⟩

/-- The best matching without the word is the best one with it. -/
theorem IsBest.insert (h : r.IsBest (before ++ after) m)
    (hword : ∀ state, ∀ arc ∈ r.automaton.arcs state, arc.input ≠ some word)
    (hskip : r.leniency.cost? word = some c) :
    r.IsBest (before ++ word :: after) (m.displaced before.length) := by
  obtain ⟨hmatching, hcost⟩ := h.isMatching.insert hskip
  refine ⟨hmatching, fun m' hm' => ?_⟩
  -- The other matching has the word between its words as well.
  obtain ⟨other, hother, rfl, -⟩ := hm'.exists_of_insert hword
  rcases h.preferred other hother with rfl | hpreferred
  · exact .inl rfl
  · exact .inr (hpreferred.displaced h.isMatching hother hcost (hother.insert hskip).2)

end Insert

/-- What is found when a word that no arc consumes is put somewhere among some words. In an
automaton in which no state leads back to itself over arcs that consume nothing, the same is found
as without the word when the word can be skipped: the same symbols are put out, the words behind
it have moved by one place, and the cost is higher by that of the word, which is one for a stop
word and else ten. When the word cannot be skipped, nothing is found. -/
theorem bestAlignment_insert {a : Automaton} (ha : a.WellFormed)
    (hacyclic : ∀ state, ¬ Graph.OnCycle a.silentTargets state) (leniency : Leniency)
    (filter : Option WordSet) :
    ∃ r, FuzzyRecognizer.new a leniency filter = .ok r ∧ ∀ before word after,
      (∀ state, ∀ arc ∈ a.arcs state, arc.input ≠ some word) →
        (∀ c, leniency.cost? word = some c →
          c = (if word ∈ leniency.stopWords then 1 else 10) ∧
          r.bestAlignment (before ++ word :: after) =
            (r.bestAlignment (before ++ after)).map (.insert before.length c)) ∧
        (leniency.cost? word = none → r.bestAlignment (before ++ word :: after) = none) := by
  obtain ⟨order, heq, horder⟩ := Automaton.silentOrder_of_acyclic ha hacyclic
  let r : FuzzyRecognizer := ⟨a, order, leniency, filter⟩
  refine ⟨r, new_eq_ok_iff.2 ⟨order, heq, rfl⟩, fun before word after hword =>
    ⟨fun c hskip => ⟨Leniency.eq_of_cost? hskip, ?_⟩, fun hskip => ?_⟩⟩
  · rcases bestAlignment_cases (r := r) ha horder (before ++ after) with
      ⟨hnone, hno⟩ | ⟨m, hm, hfound⟩
    · rw [hnone, Option.map_none, bestAlignment_eq_none_iff (r := r) ha horder]
      intro m' hm'
      obtain ⟨m, hm, -⟩ := hm'.exists_of_insert hword
      exact hno m hm
    · -- The best matching remains the best one, so it is the one that is found.
      have hinsert := (hm.insert hword hskip).bestAlignment_eq ha horder
      rw [hfound, hinsert, (hm.isMatching.insert hskip).2]
      rfl
  · rw [bestAlignment_eq_none_iff (r := r) ha horder]
    intro m' hm'
    -- The word would have been skipped.
    obtain ⟨m, -, -, hsome⟩ := hm'.exists_of_insert hword
    change (leniency.cost? word).isSome = true at hsome
    rw [hskip] at hsome
    cases hsome

/-- An automaton that consumes one word. Between other words, a stop word changes only the cost,
and a word that is not known is in the way. -/
theorem bestAlignment_insert_please : ∃ a r,
    a = Automaton.ofArc (some "hello") (some (.word "hello")) ∧
    FuzzyRecognizer.new a ⟨.ofList ["please"], some (.ofList ["hello"]), false⟩ none = .ok r ∧
    ∀ before after,
      r.bestAlignment (before ++ "please" :: after) =
        (r.bestAlignment (before ++ after)).map (.insert before.length 1) ∧
      r.bestAlignment (before ++ "thanks" :: after) = none := by
  have hspells := Automaton.spells_ofArc (some "hello") (some (.word "hello"))
  have hlabel : ∀ state, ∀ arc ∈ (Automaton.ofArc (some "hello") (some (.word "hello"))).arcs state,
      arc.input = some "hello" := by
    rintro (_ | _ | state) arc harc
    · cases List.mem_singleton.1 harc
      rfl
    · cases harc
    · cases harc
  obtain ⟨r, hr, hinsert⟩ := bestAlignment_insert hspells.tidy.wellFormed
    (fun state hcycle => hspells.not_onCycle state (Automaton.onCycle_of_silent hcycle))
    ⟨.ofList ["please"], some (.ofList ["hello"]), false⟩ none
  refine ⟨_, r, rfl, hr, fun before after => ⟨?_, ?_⟩⟩
  · refine ((hinsert before "please" after fun state arc harc => ?_).1 1 (by decide)).2
    rw [hlabel state arc harc]
    decide
  · refine (hinsert before "thanks" after fun state arc harc => ?_).2 (by decide)
    rw [hlabel state arc harc]
    decide

end FuzzyRecognizer

end Phrasebook
