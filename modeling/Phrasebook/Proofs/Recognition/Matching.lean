import Phrasebook.Proofs.Automaton.Combine
import Phrasebook.Proofs.Recognition.Continuation
import Phrasebook.Recognition.Matching

/-!
# Fuzzy recognition finds the best matching

The choices that the search makes are those of a matching: an arc at each state of an accepted
run, and a place for each word that the run consumes. So the alignment that is found is that of
the best matching, and nothing is found only where there is no matching.

* `FuzzyRecognizer.Picks`: words are matched in some places of an input, and the others skipped.
* `FuzzyRecognizer.picks_iff`: what that says about the places.
* `FuzzyRecognizer.continues_iff_follows`: the choices of the search are those of runs.
* `FuzzyRecognizer.bestAlignment_optimal`: what the search finds.
-/

namespace Phrasebook

namespace FuzzyRecognizer

open Phrasebook.Alignment (Optimal Ahead)

variable {r : FuzzyRecognizer}

/-! ### Places of words -/

/-- Words are matched in the given places of an input whose first word has the given position,
and all other words are skipped. -/
inductive Picks : List InputToken → Nat → List String → List Nat → Nat → Prop
  /-- There is no word left. -/
  | nil {position : Nat} : Picks [] position [] [] 0
  /-- The first word is skipped. -/
  | skip {token : InputToken} {rest : List InputToken} {position c cost : Nat}
    {words : List String} {used : List Nat} (skippable : token.cost? = some c)
    (later : Picks rest (position + 1) words used cost) :
    Picks (token :: rest) position words used (c + cost)
  /-- The first word is matched. -/
  | take {token : InputToken} {rest : List InputToken} {position cost : Nat}
    {words : List String} {used : List Nat} (later : Picks rest (position + 1) words used cost) :
    Picks (token :: rest) position (token.word :: words) (position :: used) cost

/-- Where no word is matched all words are skipped. -/
theorem picks_nil_iff {rest : List InputToken} {position cost : Nat} {used : List Nat} :
    Picks rest position [] used cost ↔ used = [] ∧ InputToken.skipAll? rest = some cost := by
  induction rest generalizing position cost with
  | nil =>
    constructor
    · intro h
      cases h
      exact ⟨rfl, rfl⟩
    · rintro ⟨rfl, hcost⟩
      cases hcost
      exact .nil
  | cons token rest ih =>
    rw [skipAll?_cons]
    constructor
    · intro h
      cases h with
      | skip skippable later =>
        obtain ⟨rfl, hcost⟩ := ih.1 later
        exact ⟨rfl, _, _, skippable, hcost, rfl⟩
    · rintro ⟨rfl, c, d, hc, hd, rfl⟩
      exact .skip hc (ih.2 ⟨rfl, hd⟩)

/-- The first word that is matched stands behind some that are skipped. -/
theorem picks_cons_iff {rest : List InputToken} {position cost : Nat} {word : String}
    {words : List String} {used : List Nat} :
    Picks rest position (word :: words) used cost ↔
      ∃ skipped token later c d used', rest = skipped ++ token :: later ∧ word = token.word ∧
        InputToken.skipAll? skipped = some c ∧ used = (position + skipped.length) :: used' ∧
        Picks later (position + skipped.length + 1) words used' d ∧ cost = c + d := by
  constructor
  · -- The skipped words are those that are met before the first one that is matched.
    intro h
    generalize heq : word :: words = all at h
    induction h with
    | nil => cases heq
    | @skip token rest position c cost words' used skippable _ ih =>
      obtain ⟨skipped, next, behind, d, e, used', rfl, hword, hskips, rfl, hlater, rfl⟩ := ih heq
      refine ⟨token :: skipped, next, behind, c + d, e, used', rfl, hword,
        skipAll?_cons.2 ⟨c, d, skippable, hskips, rfl⟩, ?_, ?_, (Nat.add_assoc c d e).symm⟩
      · rw [List.length_cons, Nat.add_assoc, Nat.add_comm 1]
      · rwa [List.length_cons, Nat.add_comm skipped.length, ← Nat.add_assoc]
    | @take token rest position cost words' used later =>
      cases heq
      exact ⟨[], token, rest, 0, cost, used, rfl, rfl, rfl, rfl, later, (Nat.zero_add _).symm⟩
  · rintro ⟨skipped, token, later, c, d, used', rfl, rfl, hskips, rfl, hlater, rfl⟩
    induction skipped generalizing position c with
    | nil =>
      cases hskips
      rw [Nat.zero_add]
      exact .take hlater
    | cons first skipped ih =>
      obtain ⟨c, e, hfirst, hrest, rfl⟩ := skipAll?_cons.1 hskips
      rw [List.length_cons, Nat.add_comm skipped.length, ← Nat.add_assoc] at hlater ⊢
      rw [Nat.add_assoc c e d]
      exact .skip hfirst (ih e hrest hlater)

/-- Words of an input, of which the first has the given position, are matched in some places,
and the others can be skipped. -/
structure Assigned (r : FuzzyRecognizer) (tokens : List String) (position : Nat)
    (words : List String) (used : List Nat) : Prop where
  /-- The places are in order. -/
  increasing : used.Pairwise (· < ·)
  /-- The places are those of the input. -/
  above : ∀ i ∈ used, position ≤ i
  /-- The words are found there. -/
  words : used.map (fun i => tokens[i - position]?) = words.map some
  /-- The other words can be skipped. -/
  skippable : ∀ i word, tokens[i]? = some word → position + i ∉ used →
    (r.leniency.cost? word).isSome = true

/-- What it costs to skip the words of an input that are not in the given places. -/
def costFrom (r : FuzzyRecognizer) (tokens : List String) (position : Nat) (used : List Nat) :
    Nat :=
  (((tokens.zipIdx position).filter fun (_, i) => i ∉ used).map fun (word, _) =>
    (r.leniency.cost? word).getD 0).foldr Nat.add 0

theorem costFrom_cons {word : String} {tokens : List String} {position : Nat} {used : List Nat} :
    r.costFrom (word :: tokens) position used =
      (if position ∈ used then 0 else (r.leniency.cost? word).getD 0) +
        r.costFrom tokens (position + 1) used := by
  rw [costFrom, List.zipIdx_cons]
  by_cases hmem : position ∈ used
  · rw [List.filter_cons_of_neg (by simpa using hmem), if_pos hmem, Nat.zero_add]
    rfl
  · rw [List.filter_cons_of_pos (by simpa using hmem), if_neg hmem]
    rfl

/-- No word of the input stands in a place before it. -/
theorem mem_cons_iff_of_mem_zipIdx {tokens : List String} {word : String} {position i : Nat}
    {used : List Nat} (h : (word, i) ∈ tokens.zipIdx (position + 1)) :
    i ∈ position :: used ↔ i ∈ used := by
  have hle := List.le_snd_of_mem_zipIdx h
  have hne : i ≠ position := fun heq => by
    rw [heq] at hle
    exact absurd hle (Nat.not_succ_le_self position)
  rw [List.mem_cons, or_iff_right hne]

/-- A place before the input does not matter for the cost. -/
theorem costFrom_cons_used {tokens : List String} {position : Nat} {used : List Nat} :
    r.costFrom tokens (position + 1) (position :: used) =
      r.costFrom tokens (position + 1) used := by
  have hfilter : (tokens.zipIdx (position + 1)).filter (fun (_, i) => i ∉ position :: used) =
      (tokens.zipIdx (position + 1)).filter fun (_, i) => i ∉ used :=
    List.filter_congr fun ⟨word, i⟩ hmem => by simp only [mem_cons_iff_of_mem_zipIdx hmem]
  rw [costFrom, hfilter, costFrom]

/-- Places behind the first word are places of the other words. -/
theorem map_getElem?_cons {tokens : List String} {position : Nat} {word : String}
    {used : List Nat} (h : ∀ i ∈ used, position + 1 ≤ i) :
    used.map (fun i => (word :: tokens)[i - position]?) =
      used.map (fun i => tokens[i - (position + 1)]?) := by
  refine List.map_congr_left fun i hi => ?_
  have hle := h i hi
  have hsub : i - position = i - (position + 1) + 1 := by omega
  rw [hsub, List.getElem?_cons_succ]

/-- The first word of the input is skipped. -/
theorem Assigned.skip {tokens words : List String} {position : Nat} {word : String}
    {used : List Nat} (h : r.Assigned tokens (position + 1) words used)
    (hword : (r.leniency.cost? word).isSome = true) :
    r.Assigned (word :: tokens) position words used := by
  refine ⟨h.increasing, fun i hi => Nat.le_of_succ_le (h.above i hi), ?_, fun i x hx hi => ?_⟩
  · rw [map_getElem?_cons h.above, h.words]
  · cases i with
    | zero =>
      cases hx
      exact hword
    | succ i =>
      rw [Nat.add_comm i, ← Nat.add_assoc] at hi
      exact h.skippable i x hx hi

/-- The first word of the input is matched. -/
theorem Assigned.take {tokens words : List String} {position : Nat} {word : String}
    {used : List Nat} (h : r.Assigned tokens (position + 1) words used) :
    r.Assigned (word :: tokens) position (word :: words) (position :: used) := by
  refine ⟨List.pairwise_cons.2 ⟨fun i hi => h.above i hi, h.increasing⟩,
    List.forall_mem_cons.2 ⟨Nat.le_refl _, fun i hi => Nat.le_of_succ_le (h.above i hi)⟩,
    ?_, fun i x hx hi => ?_⟩
  · rw [List.map_cons, List.map_cons, map_getElem?_cons h.above, h.words, Nat.sub_self,
      List.getElem?_cons_zero]
  · cases i with
    | zero => exact absurd List.mem_cons_self hi
    | succ i =>
      rw [Nat.add_comm i, ← Nat.add_assoc, List.mem_cons, not_or] at hi
      exact h.skippable i x hx hi.2

/-- A first word in none of the places can be skipped. -/
theorem Assigned.of_not_mem {tokens words : List String} {position : Nat} {word : String}
    {used : List Nat} (h : r.Assigned (word :: tokens) position words used)
    (hmem : position ∉ used) :
    (r.leniency.cost? word).isSome = true ∧ r.Assigned tokens (position + 1) words used := by
  have habove : ∀ i ∈ used, position + 1 ≤ i := fun i hi =>
    Nat.lt_of_le_of_ne (h.above i hi) fun heq => hmem (heq ▸ hi)
  have hwords := h.words
  rw [map_getElem?_cons habove] at hwords
  refine ⟨h.skippable 0 word rfl hmem, h.increasing, habove, hwords, fun i x hx hi => ?_⟩
  refine h.skippable (i + 1) x hx ?_
  rwa [Nat.add_comm i, ← Nat.add_assoc]

/-- A first word in one of the places is in the first place, which is that of the first word that
is matched. -/
theorem Assigned.of_mem {tokens words : List String} {position : Nat} {word : String}
    {used : List Nat} (h : r.Assigned (word :: tokens) position words used)
    (hmem : position ∈ used) :
    ∃ words' used', words = word :: words' ∧ used = position :: used' ∧
      r.Assigned tokens (position + 1) words' used' := by
  obtain ⟨used', rfl⟩ : ∃ used', used = position :: used' := by
    cases used with
    | nil => cases hmem
    | cons i used =>
      -- The places are in order, and none is before the input.
      have hi := h.above i List.mem_cons_self
      rcases List.mem_cons.1 hmem with rfl | hmem
      · exact ⟨used, rfl⟩
      · have := (List.pairwise_cons.1 h.increasing).1 position hmem
        omega
  obtain ⟨hfirst, hincreasing⟩ := List.pairwise_cons.1 h.increasing
  have hwords := h.words
  rw [List.map_cons, Nat.sub_self, List.getElem?_cons_zero, map_getElem?_cons hfirst] at hwords
  cases words with
  | nil => cases hwords
  | cons word' words =>
    rw [List.map_cons, List.cons.injEq, Option.some.injEq] at hwords
    obtain ⟨rfl, hwords⟩ := hwords
    refine ⟨words, used', rfl, rfl, hincreasing, hfirst, hwords, fun i x hx hi => ?_⟩
    refine h.skippable (i + 1) x hx ?_
    rw [Nat.add_comm i, ← Nat.add_assoc, List.mem_cons, not_or]
    exact ⟨by omega, hi⟩

/-- The first word of the input is skipped, or it is the first that is matched. -/
theorem assigned_cons_iff {tokens words : List String} {position : Nat} {word : String}
    {used : List Nat} :
    r.Assigned (word :: tokens) position words used ↔
      (position ∉ used ∧ (r.leniency.cost? word).isSome = true ∧
        r.Assigned tokens (position + 1) words used) ∨
      ∃ words' used', words = word :: words' ∧ used = position :: used' ∧
        r.Assigned tokens (position + 1) words' used' := by
  constructor
  · intro h
    by_cases hmem : position ∈ used
    · exact .inr (h.of_mem hmem)
    · exact .inl ⟨hmem, h.of_not_mem hmem⟩
  · rintro (⟨_, hword, h⟩ | ⟨words, used, rfl, rfl, h⟩)
    · exact h.skip hword
    · exact h.take

/-- Matching words in some places, said word by word and all at once. -/
theorem picks_iff {tokens words : List String} {position cost : Nat} {used : List Nat} :
    Picks (r.input tokens) position words used cost ↔
      r.Assigned tokens position words used ∧ cost = r.costFrom tokens position used := by
  induction tokens generalizing position words used cost with
  | nil =>
    constructor
    · intro h
      cases h
      exact ⟨⟨.nil, by simp, rfl, by simp⟩, rfl⟩
    · rintro ⟨h, rfl⟩
      have hwords := h.words
      cases used with
      | nil =>
        obtain rfl : words = [] := by simpa using hwords.symm
        exact .nil
      | cons i used =>
        cases words with
        | nil => cases hwords
        | cons word words => simp at hwords
  | cons word tokens ih =>
    rw [assigned_cons_iff, costFrom_cons]
    constructor
    · intro h
      cases h with
      | skip skippable later =>
        -- The other places are behind the first word.
        change r.leniency.cost? word = some _ at skippable
        obtain ⟨h, rfl⟩ := ih.1 later
        have hmem : position ∉ used := fun hmem => Nat.not_succ_le_self _ (h.above position hmem)
        refine ⟨.inl ⟨hmem, by rw [skippable]; rfl, h⟩, ?_⟩
        rw [if_neg hmem, skippable]
        rfl
      | take later =>
        obtain ⟨h, rfl⟩ := ih.1 later
        refine ⟨.inr ⟨_, _, rfl, rfl, h⟩, ?_⟩
        rw [if_pos List.mem_cons_self, Nat.zero_add, costFrom_cons_used]
    · rintro ⟨⟨hmem, hword, h⟩ | ⟨words, used, rfl, rfl, h⟩, rfl⟩
      · obtain ⟨c, hc⟩ := Option.isSome_iff_exists.1 hword
        rw [if_neg hmem, hc]
        exact .skip hc (ih.2 ⟨h, rfl⟩)
      · rw [if_pos List.mem_cons_self, Nat.zero_add, costFrom_cons_used]
        exact .take (ih.2 ⟨h, rfl⟩)

/-! ### Runs -/

/-- The choices of the search are those of the runs that stop in final states, with places for
the words that they consume. -/
theorem continues_iff_follows {rest : List InputToken} {position state : Nat} {begun : Bool}
    {choices : List Nat} {a : Alignment} :
    r.Continues rest position state begun choices a ↔
      ∃ run arcs used cost stop, r.automaton.Follows state run arcs stop ∧
        r.automaton.isFinal stop = true ∧ (∀ arc ∈ arcs, arc.isAllowed r.filter = true) ∧
        Picks rest position (Utterance.ofArcs arcs).words used cost ∧
        (begun = true ∨ used ≠ []) ∧ choices = Matching.choicesOf run arcs used ∧
        a = ⟨cost, arcs.length, (Utterance.ofArcs arcs).output, used⟩ := by
  constructor
  · intro h
    induction h with
    | @stop rest position state cost final skips =>
      exact ⟨[], [], [], cost, state, .nil state, final, by simp,
        picks_nil_iff.2 ⟨rfl, skips⟩, .inl rfl, rfl, rfl⟩
    | @pass rest position state i arc begun choices a first allowed silent behind ih =>
      -- The arc is put before the run, and the places stay as they are.
      obtain ⟨run, arcs, used, cost, stop, hrun, hfinal, hallowed, hpicks, hbegun, rfl, rfl⟩ := ih
      have hsilent := Automaton.Arc.isSilent_of_input_eq_none silent
      refine ⟨i :: run, arc :: arcs, used, cost, stop, .cons first hrun, hfinal,
        List.forall_mem_cons.2 ⟨allowed, hallowed⟩, ?_, hbegun, ?_, ?_⟩
      · rwa [Utterance.ofArcs_cons, Utterance.words_append, Utterance.ofArc, silent]
      · rw [Matching.choicesOf, if_pos hsilent]
      · rw [Utterance.ofArcs_cons]
        rfl
    | @take skipped rest token position state i cost arc begun choices a first allowed word skips
        behind ih =>
      -- The place of the consumed word is put before the places as well.
      obtain ⟨run, arcs, used, cost', stop, hrun, hfinal, hallowed, hpicks, _, rfl, rfl⟩ := ih
      have hsilent := Automaton.Arc.not_isSilent_of_input_eq_some word
      refine ⟨i :: run, arc :: arcs, (position + skipped.length) :: used, cost + cost', stop,
        .cons first hrun, hfinal, List.forall_mem_cons.2 ⟨allowed, hallowed⟩, ?_,
        .inr (List.cons_ne_nil _ _), ?_, ?_⟩
      · rw [Utterance.ofArcs_cons, Utterance.words_append, Utterance.ofArc, word]
        exact picks_cons_iff.2 ⟨skipped, token, rest, cost, cost', used, rfl, rfl, skips, rfl,
          hpicks, rfl⟩
      · rw [Matching.choicesOf, if_neg hsilent]
        rfl
      · rw [Utterance.ofArcs_cons]
        rfl
  · -- The first arc of a run that consumes a word is taken behind the words before its place.
    rintro ⟨run, arcs, used, cost, stop, hrun, hfinal, hallowed, hpicks, hbegun, rfl, rfl⟩
    induction hrun generalizing rest position used cost begun with
    | nil state =>
      obtain ⟨rfl, hskips⟩ := picks_nil_iff.1 hpicks
      obtain rfl : begun = true := hbegun.resolve_right fun hne => hne rfl
      exact .stop hfinal hskips
    | @cons state i stop arc run arcs first _ ih =>
      obtain ⟨harc, hallowed⟩ := List.forall_mem_cons.1 hallowed
      rw [Utterance.ofArcs_cons, Utterance.words_append, Utterance.ofArc] at hpicks
      rw [Utterance.ofArcs_cons]
      cases hinput : arc.input with
      | none =>
        rw [hinput] at hpicks
        have hsilent := Automaton.Arc.isSilent_of_input_eq_none hinput
        rw [Matching.choicesOf, if_pos hsilent]
        exact .pass first harc hinput (ih used cost hfinal hallowed hpicks hbegun)
      | some word =>
        rw [hinput] at hpicks
        have hsilent := Automaton.Arc.not_isSilent_of_input_eq_some hinput
        obtain ⟨skipped, token, later, c, d, used, rfl, rfl, hskips, rfl, hlater, rfl⟩ :=
          picks_cons_iff.1 hpicks
        rw [Matching.choicesOf, if_neg hsilent]
        exact .take first harc hinput hskips (ih used d hfinal hallowed hlater (.inl rfl))

theorem choicesOf_nil {used : List Nat} : Matching.choicesOf [] [] used = [] := by
  simp [Matching.choicesOf]

theorem choicesOf_cons {i : Nat} {run used : List Nat} {arc : Automaton.Arc}
    {arcs : List Automaton.Arc} :
    Matching.choicesOf (i :: run) (arc :: arcs) used =
      i :: if arc.isSilent then Matching.choicesOf run arcs used
        else used.head?.toList ++ Matching.choicesOf run arcs used.tail := by
  rw [Matching.choicesOf]
  split <;> rfl

/-- The choices tell apart the runs from a state and the places of their words. -/
theorem choicesOf_injective {a : Automaton} {state stop stop' : Nat} {run run' : List Nat}
    {used used' : List Nat} {arcs arcs' : List Automaton.Arc} (h : a.Follows state run arcs stop)
    (h' : a.Follows state run' arcs' stop')
    (hused : used.length = (Utterance.ofArcs arcs).words.length)
    (hused' : used'.length = (Utterance.ofArcs arcs').words.length)
    (heq : Matching.choicesOf run arcs used = Matching.choicesOf run' arcs' used') :
    run = run' ∧ used = used' := by
  induction h generalizing run' used used' arcs' with
  | nil state =>
    obtain rfl : used = [] := List.length_eq_zero_iff.1 hused
    cases h' with
    | nil => exact ⟨rfl, (List.length_eq_zero_iff.1 hused').symm⟩
    | cons first rest =>
      rw [choicesOf_nil, choicesOf_cons] at heq
      cases heq
  | @cons state i stop arc run arcs first rest ih =>
    cases h' with
    | nil =>
      rw [choicesOf_nil, choicesOf_cons] at heq
      cases heq
    | @cons _ i' _ arc' run' arcs' first' rest' =>
      rw [choicesOf_cons, choicesOf_cons, List.cons.injEq] at heq
      obtain ⟨rfl, heq⟩ := heq
      cases Option.some.inj (first.symm.trans first')
      rw [Utterance.ofArcs_cons, Utterance.words_append, Utterance.ofArc,
        List.length_append] at hused hused'
      cases hinput : arc.input with
      | none =>
        have hsilent := Automaton.Arc.isSilent_of_input_eq_none hinput
        rw [hinput, Option.toList_none, List.length_nil, Nat.zero_add] at hused hused'
        rw [if_pos hsilent, if_pos hsilent] at heq
        obtain ⟨rfl, rfl⟩ := ih rest' hused hused' heq
        exact ⟨rfl, rfl⟩
      | some word =>
        have hsilent := Automaton.Arc.not_isSilent_of_input_eq_some hinput
        rw [hinput, Option.toList_some, List.length_singleton, Nat.add_comm 1] at hused hused'
        rw [if_neg hsilent, if_neg hsilent] at heq
        -- The place of the word is the next choice on either side.
        obtain ⟨place, used, rfl⟩ := List.exists_cons_of_length_eq_add_one hused
        obtain ⟨place', used', rfl⟩ := List.exists_cons_of_length_eq_add_one hused'
        obtain ⟨rfl, heq⟩ := List.cons.inj heq
        obtain ⟨rfl, rfl⟩ := ih rest' (Nat.succ.inj hused) (Nat.succ.inj hused') heq
        exact ⟨rfl, rfl⟩

/-- A matching is an accepted run with places for its words. -/
theorem isMatching_iff {tokens : List String} {m : Matching} :
    r.IsMatching tokens m ↔
      ∃ stop, r.automaton.Follows r.automaton.start m.run m.arcs stop ∧
        r.automaton.isFinal stop = true ∧ (∀ arc ∈ m.arcs, arc.isAllowed r.filter = true) ∧
        r.Assigned tokens 0 (Utterance.ofArcs m.arcs).words m.used ∧ m.used ≠ [] := by
  constructor
  · intro h
    obtain ⟨stop, hrun, hfinal⟩ := h.accepts
    refine ⟨stop, hrun, hfinal, h.allowed, ⟨h.increasing, fun _ _ => Nat.zero_le _, h.words, ?_⟩,
      h.matched⟩
    intro i word hword hi
    rw [Nat.zero_add] at hi
    exact h.skippable i word hword hi
  · rintro ⟨stop, hrun, hfinal, hallowed, h, hmatched⟩
    refine ⟨⟨stop, hrun, hfinal⟩, hallowed, h.increasing, h.words, hmatched, ?_⟩
    intro i word hword hi
    exact h.skippable i word hword (by rwa [Nat.zero_add])

/-- The choices from the start state are those of the matchings. -/
theorem continues_iff_isMatching {tokens : List String} {choices : List Nat} {a : Alignment} :
    r.Continues (r.input tokens) 0 r.automaton.start false choices a ↔
      ∃ m, r.IsMatching tokens m ∧ choices = m.choices ∧
        a = ⟨r.cost tokens m.used, m.arcs.length, (Utterance.ofArcs m.arcs).output, m.used⟩ := by
  rw [continues_iff_follows]
  constructor
  · rintro ⟨run, arcs, used, cost, stop, hrun, hfinal, hallowed, hpicks, hbegun, rfl, rfl⟩
    obtain ⟨hassigned, rfl⟩ := picks_iff.1 hpicks
    have hmatched : used ≠ [] := hbegun.resolve_left Bool.false_ne_true
    exact ⟨⟨run, arcs, used⟩,
      isMatching_iff.2 ⟨stop, hrun, hfinal, hallowed, hassigned, hmatched⟩, rfl, rfl⟩
  · rintro ⟨m, hm, rfl, rfl⟩
    obtain ⟨stop, hrun, hfinal, hallowed, hassigned, hmatched⟩ := isMatching_iff.1 hm
    exact ⟨m.run, m.arcs, m.used, _, stop, hrun, hfinal, hallowed,
      picks_iff.2 ⟨hassigned, rfl⟩, .inr hmatched, rfl, rfl⟩

/-- Matchings with the same choices are the same. -/
theorem IsMatching.eq_of_choices_eq {tokens : List String} {m m' : Matching}
    (hm : r.IsMatching tokens m) (hm' : r.IsMatching tokens m') (h : m.choices = m'.choices) :
    m = m' := by
  obtain ⟨stop, hrun, _⟩ := hm.accepts
  obtain ⟨stop', hrun', _⟩ := hm'.accepts
  have hlength : ∀ {m : Matching}, r.IsMatching tokens m →
      m.used.length = (Utterance.ofArcs m.arcs).words.length := by
    intro m hm
    have := congrArg List.length hm.words
    rwa [List.length_map, List.length_map] at this
  obtain ⟨run, arcs, used⟩ := m
  obtain ⟨run', arcs', used'⟩ := m'
  obtain ⟨rfl, rfl⟩ := choicesOf_injective hrun hrun' (hlength hm) (hlength hm') h
  obtain ⟨rfl, -⟩ := hrun.unique hrun'
  rfl

/-- Fuzzy recognition finds the best matching. In an automaton in which no state leads back to
itself over arcs that consume nothing there is a recognizer, which finds nothing only where there
is no matching, and else the output, the places and the cost of a matching that is preferred to
every other one. -/
theorem bestAlignment_optimal {a : Automaton} (ha : a.WellFormed)
    (hacyclic : ∀ state, ¬ Graph.OnCycle a.silentTargets state) (leniency : Leniency)
    (filter : Option WordSet) :
    ∃ r, FuzzyRecognizer.new a leniency filter = .ok r ∧ r.automaton = a ∧
      r.leniency = leniency ∧ r.filter = filter ∧ ∀ tokens,
        (r.bestAlignment tokens = none ↔ ∀ m, ¬ r.IsMatching tokens m) ∧
        ∀ found, r.bestAlignment tokens = some found → ∃ m, r.IsMatching tokens m ∧
          found = ⟨r.cost tokens m.used, m.arcs.length, (Utterance.ofArcs m.arcs).output, m.used⟩ ∧
          ∀ m', r.IsMatching tokens m' → m' = m ∨ r.Preferred tokens m m' := by
  obtain ⟨order, heq, horder⟩ := Automaton.silentOrder_of_acyclic ha hacyclic
  refine ⟨⟨a, order, leniency, filter⟩, by rw [FuzzyRecognizer.new, heq], rfl, rfl, rfl,
    fun tokens => ?_⟩
  have hbest := optimal_bestAlignment (r := ⟨a, order, leniency, filter⟩) ha horder tokens
  generalize FuzzyRecognizer.mk a order leniency filter = r at hbest
  generalize r.bestAlignment tokens = o at hbest ⊢
  rcases o with _ | found
  · refine ⟨⟨fun _ m hm => ?_, fun _ => rfl⟩, fun found h => by cases h⟩
    exact hbest _ _ (continues_iff_isMatching.2 ⟨m, hm, rfl, rfl⟩)
  · obtain ⟨choices, hfound, hbest⟩ := hbest
    obtain ⟨m, hm, rfl, rfl⟩ := continues_iff_isMatching.1 hfound
    refine ⟨⟨fun h => absurd h (Option.some_ne_none _), fun h => absurd hm (h m)⟩, ?_⟩
    intro found hfound
    cases hfound
    refine ⟨m, hm, rfl, fun m' hm' => ?_⟩
    -- A matching is known by its choices, so one that is not preferred to is the same.
    rcases hbest _ _ (continues_iff_isMatching.2 ⟨m', hm', rfl, rfl⟩) with ⟨heq, _⟩ | hahead
    · exact .inl (hm'.eq_of_choices_eq hm heq)
    · exact .inr hahead

/-- An optional word, whose automaton has arcs that consume nothing. -/
theorem bestAlignment_optimal_optional :
    ∃ r, FuzzyRecognizer.new
          (Automaton.ofArc (some "hello") (some (.word "hello"))).optional ⟨∅, none, false⟩ none =
        .ok r ∧
      r.automaton = (Automaton.ofArc (some "hello") (some (.word "hello"))).optional ∧
      r.leniency = ⟨∅, none, false⟩ ∧ r.filter = none ∧ ∀ tokens,
        (r.bestAlignment tokens = none ↔ ∀ m, ¬ r.IsMatching tokens m) ∧
        ∀ found, r.bestAlignment tokens = some found → ∃ m, r.IsMatching tokens m ∧
          found = ⟨r.cost tokens m.used, m.arcs.length, (Utterance.ofArcs m.arcs).output, m.used⟩ ∧
          ∀ m', r.IsMatching tokens m' → m' = m ∨ r.Preferred tokens m m' := by
  refine bestAlignment_optimal (Automaton.spells_ofArc _ _).optional.tidy.wellFormed
    (Graph.not_onCycle_of_rank
      (fun state => if state = 0 then 0 else if state = 1 then 2 else 1) ?_) _ _
  rintro (_ | _ | _ | _ | _ | state)
  · decide
  · decide
  · decide
  · decide
  · decide
  · intro target htarget
    exact absurd htarget List.not_mem_nil

end FuzzyRecognizer

end Phrasebook
