import Phrasebook.Proofs.Graph.Order
import Phrasebook.Proofs.Recognition.Optimum

/-!
# Continuations

The search keeps, for each position and state, the best way to go on to the end of the input.
What it chooses from is a relation: from a state, with some words left, certain choices make a
certain alignment. The best continuation is found from those behind each arc, and the states of
a position are looked at in an order in which that is known by then.

* `FuzzyRecognizer.Continues`: choices from a state and a position that make an alignment.
* `FuzzyRecognizer.optimal_bestFrom`: the best continuation from a state, out of those behind its
  arcs.
* `FuzzyRecognizer.optimal_row`: the best continuations at a position.
* `FuzzyRecognizer.optimal_bestAlignment`: what is found is the best of all.
-/

namespace Phrasebook

namespace FuzzyRecognizer

open Phrasebook.Alignment (best prefer Optimal Ahead)

variable {r : FuzzyRecognizer}

/-- From a state, with some words left of which the first has the given position, certain choices
make an alignment of the words. Runs stop only when a word has been matched, by then (`begun`) or
later. -/
inductive Continues (r : FuzzyRecognizer) :
    List InputToken → Nat → Nat → Bool → List Nat → Alignment → Prop
  /-- The run stops, and the words that are left are skipped. -/
  | stop {rest : List InputToken} {position state cost : Nat}
    (final : r.automaton.isFinal state = true)
    (skips : InputToken.skipAll? rest = some cost) :
    Continues r rest position state true [] (.stop cost)
  /-- An arc is taken that consumes nothing. -/
  | pass {rest : List InputToken} {position state i : Nat} {arc : Automaton.Arc} {begun : Bool}
    {choices : List Nat} {a : Alignment} (first : (r.automaton.arcs state)[i]? = some arc)
    (allowed : arc.isAllowed r.filter = true) (silent : arc.input = none)
    (behind : Continues r rest position arc.target begun choices a) :
    Continues r rest position state begun (i :: choices) (a.pass arc)
  /-- Some words are skipped, and an arc is taken that consumes the next one. -/
  | take {skipped rest : List InputToken} {token : InputToken} {position state i cost : Nat}
    {arc : Automaton.Arc} {begun : Bool} {choices : List Nat} {a : Alignment}
    (first : (r.automaton.arcs state)[i]? = some arc) (allowed : arc.isAllowed r.filter = true)
    (word : arc.input = some token.word) (skips : InputToken.skipAll? skipped = some cost)
    (behind : Continues r rest (position + skipped.length + 1) arc.target true choices a) :
    Continues r (skipped ++ token :: rest) position state begun
      (i :: (position + skipped.length) :: choices)
      (a.take arc cost (position + skipped.length))

/-- Behind words that have been passed over, an arc consumes one of the following words, and
certain further choices make an alignment. -/
inductive Takes (r : FuzzyRecognizer) (passed rest : List InputToken) (position : Nat)
    (arc : Automaton.Arc) : List Nat → Alignment → Prop
  /-- Some more words are skipped before the one that is consumed. -/
  | intro {skipped later : List InputToken} {token : InputToken} {cost : Nat}
    {choices : List Nat} {a : Alignment} (words : rest = skipped ++ token :: later)
    (word : arc.input = some token.word)
    (skips : InputToken.skipAll? (passed ++ skipped) = some cost)
    (behind : r.Continues later (position + (passed ++ skipped).length + 1) arc.target true
      choices a) :
    Takes r passed rest position arc ((position + (passed ++ skipped).length) :: choices)
      (a.take arc cost (position + (passed ++ skipped).length))

/-- Along an arc, certain further choices make an alignment. -/
inductive Along (r : FuzzyRecognizer) (rest : List InputToken) (position : Nat) (begun : Bool)
    (arc : Automaton.Arc) : List Nat → Alignment → Prop
  /-- The arc consumes nothing. -/
  | pass {choices : List Nat} {a : Alignment} (silent : arc.input = none)
    (behind : r.Continues rest position arc.target begun choices a) :
    Along r rest position begun arc choices (a.pass arc)
  /-- The arc consumes a word. -/
  | take {choices : List Nat} {a : Alignment} (takes : r.Takes [] rest position arc choices a) :
    Along r rest position begun arc choices a

/-- Along one of some arcs, of which the first has the position `k`, certain choices make an
alignment. -/
def AlongSome (r : FuzzyRecognizer) (rest : List InputToken) (position : Nat) (begun : Bool)
    (k : Nat) (arcs : List Automaton.Arc) (choices : List Nat) (a : Alignment) : Prop :=
  ∃ i arc later, arcs[i]? = some arc ∧ arc.isAllowed r.filter = true ∧
    r.Along rest position begun arc later a ∧ choices = (k + i) :: later

/-- A run stops at once or takes an arc. -/
theorem continues_iff {rest : List InputToken} {position state : Nat} {begun : Bool}
    {choices : List Nat} {a : Alignment} :
    r.Continues rest position state begun choices a ↔
      (choices = [] ∧ begun = true ∧ r.automaton.isFinal state = true ∧
        ∃ cost, InputToken.skipAll? rest = some cost ∧ a = .stop cost) ∨
      r.AlongSome rest position begun 0 (r.automaton.arcs state) choices a := by
  constructor
  · intro h
    cases h with
    | stop final skips => exact .inl ⟨rfl, rfl, final, _, skips, rfl⟩
    | @pass _ _ _ i _ _ _ _ first allowed silent behind =>
      exact .inr ⟨i, _, _, first, allowed, .pass silent behind, by rw [Nat.zero_add]⟩
    | @take _ _ _ _ _ i _ _ _ _ _ first allowed word skips behind =>
      exact .inr ⟨i, _, _, first, allowed, .take (.intro rfl word skips behind),
        by rw [Nat.zero_add]; rfl⟩
  · rintro (⟨rfl, rfl, final, cost, skips, rfl⟩ | ⟨i, arc, later, first, allowed, along, rfl⟩)
    · exact .stop final skips
    · rw [Nat.zero_add]
      cases along with
      | pass silent behind => exact .pass first allowed silent behind
      | take takes =>
        cases takes with
        | intro words word skips behind => exact words ▸ .take first allowed word skips behind

/-! ### Along an arc -/

theorem pass_mono {arc : Automaton.Arc} {a b : Alignment} {c d : List Nat} (h : Ahead a c b d) :
    Ahead (a.pass arc) c (b.pass arc) d := by
  simpa only [Ahead, Alignment.pass, Nat.add_lt_add_iff_right, Nat.add_right_cancel_iff] using h

theorem take_mono {arc : Automaton.Arc} {cost position : Nat} {a b : Alignment} {c d : List Nat}
    (h : Ahead a c b d) :
    Ahead (a.take arc cost position) (position :: c) (b.take arc cost position)
      (position :: d) := by
  simpa only [Ahead, Alignment.take, Nat.add_lt_add_iff_left, Nat.add_left_cancel_iff,
    Nat.add_lt_add_iff_right, Nat.add_right_cancel_iff, List.cons_lt_cons_self] using h

theorem best_filterMap_cons {α : Type} {f : α → Option Alignment} {x : α} {l : List α} :
    best ((x :: l).filterMap f) = prefer (f x) (best (l.filterMap f)) := by
  cases h : f x with
  | none => rw [List.filterMap_cons_none h, Alignment.none_prefer]
  | some a => rw [List.filterMap_cons_some h, Alignment.best_cons]

theorem skipAll?_cons {token : InputToken} {rest : List InputToken} {cost : Nat} :
    InputToken.skipAll? (token :: rest) = some cost ↔
      ∃ c d, token.cost? = some c ∧ InputToken.skipAll? rest = some d ∧ cost = c + d := by
  simp only [InputToken.skipAll?, Option.bind_eq_bind, Option.bind_eq_some_iff, Option.pure_def,
    Option.some.injEq]
  constructor
  · rintro ⟨c, hc, d, hd, rfl⟩
    exact ⟨c, d, hc, hd, rfl⟩
  · rintro ⟨c, d, hc, hd, rfl⟩
    exact ⟨c, hc, d, hd, rfl⟩

/-- Some words can be skipped when those before and those behind a place can be. -/
theorem skipAll?_append {before behind : List InputToken} {cost : Nat} :
    InputToken.skipAll? (before ++ behind) = some cost ↔
      ∃ c d, InputToken.skipAll? before = some c ∧ InputToken.skipAll? behind = some d ∧
        cost = c + d := by
  induction before generalizing cost with
  | nil => simp [InputToken.skipAll?]
  | cons token before ih =>
    rw [List.cons_append, skipAll?_cons]
    constructor
    · rintro ⟨c, d, hc, hd, rfl⟩
      obtain ⟨d, e, hbefore, he, rfl⟩ := ih.1 hd
      exact ⟨c + d, e, skipAll?_cons.2 ⟨c, d, hc, hbefore, rfl⟩, he, (Nat.add_assoc c d e).symm⟩
    · rintro ⟨c, e, hbefore, he, rfl⟩
      obtain ⟨c, d, hc, hd, rfl⟩ := skipAll?_cons.1 hbefore
      exact ⟨c, d + e, hc, ih.2 ⟨d, e, hd, he, rfl⟩, Nat.add_assoc c d e⟩

/-- The best continuations are known behind each word that an arc may consume. -/
def KnownBehind (r : FuzzyRecognizer) (later : List (Nat → Continuations))
    (rest : List InputToken) (position : Nat) (arc : Automaton.Arc) : Prop :=
  ∀ skipped token behind, rest = skipped ++ token :: behind → arc.input = some token.word →
    (InputToken.skipAll? skipped).isSome = true →
    ∃ f, later[skipped.length]? = some f ∧
      Optimal (r.Continues behind (position + skipped.length + 1) arc.target true)
        (f arc.target).begun

/-- The best continuation when an arc consumes the word behind some that are skipped, given by
their number and their cost. -/
def takeAt (later : List (Nat → Continuations)) (position : Nat) (arc : Automaton.Arc)
    (place : Nat × Nat) : Option Alignment := do
  let behind ← later[place.1]?
  return (← (behind arc.target).begun).take arc place.2 (position + place.1)

theorem takeAt_of_getElem? {later : List (Nat → Continuations)} {position skipped cost : Nat}
    {arc : Automaton.Arc} {f : Nat → Continuations} (h : later[skipped]? = some f) :
    takeAt later position arc (skipped, cost) =
      (f arc.target).begun.map (.take arc cost (position + skipped)) := by
  rw [takeAt, h]
  cases hbegun : (f arc.target).begun <;> simp [hbegun]

/-- Behind words that have been passed over, an arc consumes the next one, and certain further
choices make an alignment. -/
def TakesNext (r : FuzzyRecognizer) (passed : List InputToken) (token : InputToken)
    (rest : List InputToken) (position : Nat) (arc : Automaton.Arc) (choices : List Nat)
    (a : Alignment) : Prop :=
  ∃ cost c b, (arc.input = some token.word ∧ InputToken.skipAll? passed = some cost ∧
      r.Continues rest (position + passed.length + 1) arc.target true c b) ∧
    choices = (position + passed.length) :: c ∧ a = b.take arc cost (position + passed.length)

variable {passed rest : List InputToken} {token : InputToken} {position : Nat}
  {arc : Automaton.Arc} {choices others : List Nat} {a b : Alignment}

/-- The first word is taken, or it is passed over as well. -/
theorem takes_cons_iff :
    r.Takes passed (token :: rest) position arc choices a ↔
      r.TakesNext passed token rest position arc choices a ∨
      r.Takes (passed ++ [token]) rest position arc choices a := by
  constructor
  · intro h
    cases h with
    | @intro skipped later next cost c b words word skips behind =>
      -- The word is consumed at once when nothing is skipped before it.
      cases skipped with
      | nil =>
        cases words
        rw [List.append_nil] at skips behind ⊢
        exact .inl ⟨cost, c, b, ⟨word, skips, behind⟩, rfl, rfl⟩
      | cons first skipped =>
        cases words
        rw [List.append_cons] at skips behind ⊢
        exact .inr (.intro rfl word skips behind)
  · rintro (⟨cost, c, b, ⟨word, skips, behind⟩, rfl, rfl⟩ | h)
    · have h := Takes.intro (r := r) rfl word (by rwa [List.append_nil]) (by rwa [List.append_nil])
      rwa [List.append_nil] at h
    · cases h with
      | @intro skipped later next cost c b words word skips behind =>
        rw [← List.append_cons] at skips behind ⊢
        exact .intro (words ▸ rfl) word skips behind

/-- The place of the next word comes before those of later ones. -/
theorem TakesNext.lt (h : r.TakesNext passed token rest position arc choices a)
    (h' : r.Takes (passed ++ [token]) rest position arc others b) : choices < others := by
  obtain ⟨_, _, _, _, rfl, _⟩ := h
  obtain ⟨-, -, -, -⟩ := h'
  refine List.cons_lt_cons_iff.2 (.inl ?_)
  rw [List.length_append, List.length_append, List.length_singleton]
  omega

/-- No word is consumed behind one that cannot be skipped. -/
theorem not_takes_of_cost?_eq_none (h : token.cost? = none) :
    ¬ r.Takes (passed ++ [token]) rest position arc choices a := by
  rintro ⟨-, -, skips, -⟩
  obtain ⟨c, d, hc, -, -⟩ := skipAll?_append.1 skips
  obtain ⟨c, d, -, hd, -⟩ := skipAll?_append.1 hc
  obtain ⟨c, d, hc, -, -⟩ := skipAll?_cons.1 hd
  rw [h] at hc
  cases hc

/-- The best continuation when an arc consumes the next word. -/
theorem optimal_takesNext {later : List (Nat → Continuations)} {cost : Nat} {word : String}
    (hword : arc.input = some word) (hpassed : InputToken.skipAll? passed = some cost)
    (hknown : r.KnownBehind later (passed ++ token :: rest) position arc) :
    Optimal (r.TakesNext passed token rest position arc)
      (if token.word = word then takeAt later position arc (passed.length, cost) else none) := by
  by_cases heq : token.word = word
  · obtain ⟨f, hf, hbest⟩ := hknown passed token rest rfl (heq ▸ hword) (by rw [hpassed]; rfl)
    rw [if_pos heq, takeAt_of_getElem? hf]
    refine (hbest.map fun a c b d => take_mono).congr fun choices a => ?_
    constructor
    · rintro ⟨c, b, hb, rfl, rfl⟩
      exact ⟨cost, c, b, ⟨heq ▸ hword, hpassed, hb⟩, rfl, rfl⟩
    · rintro ⟨cost', c, b, ⟨_, hcost, hb⟩, rfl, rfl⟩
      cases hpassed.symm.trans hcost
      exact ⟨c, b, hb, rfl, rfl⟩
  · rw [if_neg heq]
    rintro choices a ⟨_, _, _, ⟨hinput, _, _⟩, _, _⟩
    rw [hword] at hinput
    exact heq (Option.some.inj hinput).symm

/-- Of the words that an arc may consume, each gives its best continuation. -/
theorem optimal_occurrences {later : List (Nat → Continuations)} (passed : List InputToken)
    {rest : List InputToken} {position cost : Nat} {arc : Automaton.Arc} {word : String}
    (hword : arc.input = some word) (hpassed : InputToken.skipAll? passed = some cost)
    (hknown : r.KnownBehind later (passed ++ rest) position arc) :
    Optimal (r.Takes passed rest position arc)
      (best ((InputToken.occurrences word passed.length cost rest).filterMap
        (takeAt later position arc))) := by
  induction rest generalizing passed cost with
  | nil =>
    rintro choices a ⟨words, -, -, -⟩
    simp at words
  | cons token rest ih =>
    -- The words behind the first one are in reach if it can be skipped.
    obtain ⟨places, hplaces, hrest⟩ : ∃ places,
        InputToken.occurrences word passed.length cost (token :: rest) =
          (if token.word = word then (passed.length, cost) :: places else places) ∧
        Optimal (r.Takes (passed ++ [token]) rest position arc)
          (best (places.filterMap (takeAt later position arc))) := by
      cases hcost : token.cost? with
      | none =>
        exact ⟨[], by rw [InputToken.occurrences, hcost],
          fun _ _ => not_takes_of_cost?_eq_none hcost⟩
      | some c =>
        have hpassed' : InputToken.skipAll? (passed ++ [token]) = some (cost + c) :=
          skipAll?_append.2 ⟨cost, c, hpassed, skipAll?_cons.2 ⟨c, 0, hcost, rfl, rfl⟩, rfl⟩
        have h := ih (passed ++ [token]) hpassed' (by rwa [← List.append_cons])
        rw [List.length_append, List.length_singleton] at h
        exact ⟨_, by rw [InputToken.occurrences, hcost], h⟩
    -- Of two equally good alignments the one with the earlier place comes first.
    have hboth := ((optimal_takesNext hword hpassed hknown).prefer hrest
      fun _ _ _ _ => TakesNext.lt).congr fun choices a => takes_cons_iff.symm
    rw [hplaces]
    split
    · next heq =>
      rw [if_pos heq] at hboth
      rwa [best_filterMap_cons]
    · next heq =>
      rw [if_neg heq, Alignment.none_prefer] at hboth
      exact hboth

/-! ### From a state -/

/-- A row holds the best continuations from a state, with and without a word matched before. -/
def KnownAt (r : FuzzyRecognizer) (f : Nat → Continuations) (rest : List InputToken)
    (position state : Nat) : Prop :=
  ∀ begun, Optimal (r.Continues rest position state begun) ((f state).get begun)

/-- The best continuation along an arc. -/
theorem optimal_along {here : Nat → Continuations} {later : List (Nat → Continuations)}
    {rest : List InputToken} {position : Nat} {begun : Bool} {arc : Automaton.Arc}
    (hhere : arc.input = none → r.KnownAt here rest position arc.target)
    (hlater : r.KnownBehind later rest position arc) :
    Optimal (r.Along rest position begun arc)
      (best (along here later rest position begun arc)) := by
  rw [along]
  cases hinput : arc.input with
  | none =>
    rw [Alignment.best_toList]
    refine ((hhere hinput begun).map (f := id) fun a c b d => pass_mono).congr fun choices a => ?_
    constructor
    · rintro ⟨c, b, hb, rfl, rfl⟩
      exact .pass hinput hb
    · intro h
      cases h with
      | pass _ behind => exact ⟨_, _, behind, rfl, rfl⟩
      | take takes =>
        obtain ⟨-, word, -, -⟩ := takes
        rw [hinput] at word
        cases word
  | some word =>
    refine (optimal_occurrences [] hinput rfl hlater).congr fun choices a => ?_
    constructor
    · exact .take
    · intro h
      cases h with
      | pass silent _ =>
        rw [hinput] at silent
        cases silent
      | take takes => exact takes

/-- The first arc is taken or a later one. -/
theorem alongSome_cons_iff {begun : Bool} {k : Nat} {arcs : List Automaton.Arc} :
    r.AlongSome rest position begun k (arc :: arcs) choices a ↔
      (∃ c b, (arc.isAllowed r.filter = true ∧ r.Along rest position begun arc c b) ∧
        choices = k :: c ∧ a = b) ∨
      r.AlongSome rest position begun (k + 1) arcs choices a := by
  constructor
  · rintro ⟨i, arc', c, harc, hallowed, halong, rfl⟩
    cases i with
    | zero =>
      cases harc
      exact .inl ⟨c, a, ⟨hallowed, halong⟩, rfl, rfl⟩
    | succ i =>
      exact .inr ⟨i, arc', c, harc, hallowed, halong, by rw [Nat.add_assoc, Nat.add_comm 1 i]⟩
  · rintro (⟨c, b, ⟨hallowed, halong⟩, rfl, rfl⟩ | ⟨i, arc', c, harc, hallowed, halong, rfl⟩)
    · exact ⟨0, arc, c, rfl, hallowed, halong, rfl⟩
    · exact ⟨i + 1, arc', c, harc, hallowed, halong, by rw [Nat.add_assoc, Nat.add_comm 1 i]⟩

/-- The best continuation over some arcs, of which the first has a given position. -/
theorem optimal_arcs {here : Nat → Continuations} {later : List (Nat → Continuations)}
    {rest : List InputToken} {position : Nat} (begun : Bool) (k : Nat)
    {arcs : List Automaton.Arc}
    (h : ∀ arc ∈ arcs, arc.isAllowed r.filter = true →
      Optimal (r.Along rest position begun arc)
        (best (along here later rest position begun arc))) :
    Optimal (r.AlongSome rest position begun k arcs)
      (best ((arcs.filter (Automaton.Arc.isAllowed r.filter)).flatMap
        (along here later rest position begun))) := by
  induction arcs generalizing k with
  | nil =>
    rintro choices a ⟨i, arc, c, harc, -⟩
    simp at harc
  | cons arc arcs ih =>
    have hrest := ih (k + 1) fun arc harc => h arc (List.mem_cons_of_mem _ harc)
    refine Optimal.congr ?_ fun choices a => alongSome_cons_iff.symm
    by_cases hallowed : arc.isAllowed r.filter = true
    · rw [List.filter_cons_of_pos hallowed, List.flatMap_cons, Alignment.best_append]
      -- Alignments over the same arc compare as what follows it, and before those over later arcs.
      have hmono : ∀ a c b d, Ahead a c b d → Ahead (id a) (k :: c) (id b) (k :: d) := by
        intro a c b d hahead
        simpa only [Ahead, id, List.cons_lt_cons_self] using hahead
      have hfirst := (h arc List.mem_cons_self hallowed).map hmono
      rw [Option.map_id] at hfirst
      refine Optimal.prefer ?_ hrest ?_
      · refine hfirst.congr fun choices a => ?_
        simp only [hallowed, true_and, id]
      · rintro _ _ _ _ ⟨c, b, _, rfl, rfl⟩ ⟨i, arc', d, _, _, _, rfl⟩
        exact List.cons_lt_cons_iff.2 (.inl (by omega))
    · -- An arc that may not be taken is no choice, but it keeps its position.
      rw [List.filter_cons_of_neg hallowed]
      refine hrest.congr fun choices a => (or_iff_right ?_).symm
      rintro ⟨c, b, ⟨hallowed', _⟩, _⟩
      exact hallowed hallowed'

/-- The best continuation from a state is that over one of its arcs, or the run stops. -/
theorem optimal_bestFrom {here : Nat → Continuations} {later : List (Nat → Continuations)}
    {rest : List InputToken} {position state : Nat}
    (hhere : ∀ arc ∈ r.automaton.arcs state, arc.isAllowed r.filter = true → arc.input = none →
      r.KnownAt here rest position arc.target)
    (hlater : ∀ arc ∈ r.automaton.arcs state, arc.isAllowed r.filter = true →
      r.KnownBehind later rest position arc) (begun : Bool) :
    Optimal (r.Continues rest position state begun)
      (r.bestFrom here later rest position state begun) := by
  have harcs := optimal_arcs (r := r) begun 0
    fun arc harc hallowed => optimal_along (hhere arc harc hallowed) (hlater arc harc hallowed)
  rw [bestFrom, Alignment.best_append]
  refine (Optimal.prefer ?_ harcs ?_).congr fun choices a => continues_iff.symm
  · by_cases hstop : begun = true ∧ r.automaton.isFinal state = true
    · rw [if_pos (by simpa using hstop), Alignment.best_toList]
      cases hcost : InputToken.skipAll? rest with
      | none =>
        rintro choices a ⟨-, -, -, cost, hcost', -⟩
        cases hcost'
      | some cost =>
        refine ⟨[], ⟨rfl, hstop.1, hstop.2, cost, rfl, rfl⟩, ?_⟩
        rintro others b ⟨rfl, -, -, cost', hcost', rfl⟩
        cases hcost'
        exact .inl ⟨rfl, rfl⟩
    · rw [if_neg (by simpa using hstop)]
      rintro choices a ⟨-, hbegun, hfinal, -⟩
      exact hstop ⟨hbegun, hfinal⟩
  · -- A run that stops is the first of those that it begins.
    rintro _ _ _ _ ⟨rfl, -⟩ ⟨i, arc, c, -, -, -, rfl⟩
    exact List.nil_lt_cons (0 + i) c

/-! ### Rows -/

/-- Changing the entry of a state in a row changes no other one. -/
theorem inRow_setIfInBounds {row : Array Continuations} {state other : Nat} {c : Continuations}
    (hstate : state < row.size) :
    inRow (row.setIfInBounds state c) other = if other = state then c else inRow row other := by
  rw [inRow, Array.getElem?_setIfInBounds]
  by_cases heq : state = other
  · subst heq
    simp [hstate]
  · simp [heq, Ne.symm heq, inRow]

/-- A row in which the best continuations from a state are put knows this state as well. -/
theorem knownAt_setIfInBounds {row : Array Continuations} {later : List (Nat → Continuations)}
    {v state : Nat} (hv : v < row.size)
    (hknown : state ≠ v → r.KnownAt (inRow row) rest position state)
    (hbest : ∀ begun, Optimal (r.Continues rest position v begun)
      (r.bestFrom (inRow row) later rest position v begun)) :
    r.KnownAt (inRow (row.setIfInBounds v ⟨r.bestFrom (inRow row) later rest position v false,
      r.bestFrom (inRow row) later rest position v true⟩)) rest position state := by
  intro begun
  rw [inRow_setIfInBounds hv]
  by_cases heq : state = v
  · subst heq
    rw [if_pos rfl]
    cases begun with
    | false => exact hbest false
    | true => exact hbest true
  · rw [if_neg heq]
    exact hknown heq begun

/-- The best continuations from the states that are live at a position, which are looked at from
the last to the first. -/
theorem optimal_row {live : Nat → Bool} {later : List (Nat → Continuations)}
    {rest : List InputToken} {position : Nat} (hnodup : r.order.Nodup)
    (hlt : ∀ state ∈ r.order, state < r.automaton.size)
    (hforward : Graph.Forward r.automaton.silentTargets r.order)
    (hlive : ∀ state, live state = true → ∀ arc ∈ r.automaton.arcs state,
      arc.isAllowed r.filter = true → arc.input = none → live arc.target = true)
    (hlater : ∀ state, live state = true → ∀ arc ∈ r.automaton.arcs state,
      arc.isAllowed r.filter = true → r.KnownBehind later rest position arc) :
    ∀ state ∈ r.order, live state = true →
      r.KnownAt (inRow (r.row live later rest position)) rest position state := by
  rw [row, List.filter_reverse, List.foldl_reverse]
  generalize r.order = order at hnodup hlt hforward
  -- The states behind a state of the order are in the row when the state is looked at.
  suffices h : ∀ row, (order.filter live).foldr (fun state row =>
      row.setIfInBounds state ⟨r.bestFrom (inRow row) later rest position state false,
        r.bestFrom (inRow row) later rest position state true⟩)
      (Array.replicate r.automaton.size .none) = row →
      row.size = r.automaton.size ∧ ∀ state ∈ order, live state = true →
        r.KnownAt (inRow row) rest position state from (h _ rfl).2
  induction order with
  | nil =>
    rintro _ rfl
    exact ⟨Array.size_replicate, by simp⟩
  | cons v order ih =>
    obtain ⟨hv, hnodup⟩ := List.nodup_cons.1 hnodup
    obtain ⟨hsize, hknown⟩ := ih hnodup (fun state hs => hlt state (List.mem_cons_of_mem _ hs))
      hforward.2 _ rfl
    cases hvlive : live v with
    | false =>
      rw [List.filter_cons_of_neg (by rw [hvlive]; exact Bool.false_ne_true)]
      rintro _ rfl
      refine ⟨hsize, fun state hs hlives => ?_⟩
      rcases List.mem_cons.1 hs with rfl | hs
      · rw [hvlive] at hlives
        cases hlives
      · exact hknown state hs hlives
    | true =>
      rw [List.filter_cons_of_pos hvlive, List.foldr_cons]
      generalize (order.filter live).foldr _ _ = old at hsize hknown
      rintro _ rfl
      have hvlt : v < old.size := by rw [hsize]; exact hlt v List.mem_cons_self
      refine ⟨by rw [Array.size_setIfInBounds, hsize], fun state hs hlives => ?_⟩
      refine knownAt_setIfInBounds hvlt
        (fun heq => hknown state (List.mem_of_ne_of_mem heq hs) hlives) (optimal_bestFrom ?_ ?_)
      · -- An arc that consumes nothing leads to a later state of the order.
        intro arc harc hallowed hinput
        have hsilent := Automaton.Arc.isSilent_of_input_eq_none hinput
        have htarget : arc.target ∈ r.automaton.silentTargets v :=
          List.mem_map.2 ⟨arc, List.mem_filter.2 ⟨harc, hsilent⟩, rfl⟩
        exact hknown arc.target (hforward.1 _ htarget) (hlive v hvlive arc harc hallowed hinput)
      · exact hlater v hvlive

/-- Which pairs of position and state are live: with one that an alignment can come to, also those
that it can come to next. -/
structure Closed (r : FuzzyRecognizer) (input : List InputToken) (live : Nat → Nat → Bool) :
    Prop where
  /-- Arcs that consume nothing keep the position. -/
  pass : ∀ position ≤ input.length, ∀ state, live position state = true →
    ∀ arc ∈ r.automaton.arcs state, arc.isAllowed r.filter = true →
    arc.input = none → live position arc.target = true
  /-- Arcs that consume a word lead behind it. -/
  take : ∀ position state, live position state = true →
    ∀ arc ∈ r.automaton.arcs state, arc.isAllowed r.filter = true →
    ∀ skipped token behind, input.drop position = skipped ++ token :: behind →
    arc.input = some token.word → (InputToken.skipAll? skipped).isSome = true →
    live (position + skipped.length + 1) arc.target = true

/-- The rows from a position on hold the best continuations from all states that are live. -/
theorem optimal_rows {n : Nat} {marks : Marks n} {input rest : List InputToken}
    {position : Nat} (ha : r.automaton.WellFormed)
    (horder : Graph.IsOrder r.automaton.size r.automaton.silentTargets r.order)
    (hclosed : r.Closed input fun position state => marks.contains (r.key position state))
    (hrest : input.drop position = rest) (hlength : position + rest.length = input.length) :
    ∀ k ≤ rest.length, ∃ f, (r.rows marks input.length rest)[k]? = some f ∧
      ∀ state < r.automaton.size, marks.contains (r.key (position + k) state) = true →
        r.KnownAt f (rest.drop k) (position + k) state := by
  have hlt : ∀ state ∈ r.order, state < r.automaton.size := fun state => (horder.mem_iff state).1
  have hmem : ∀ state < r.automaton.size, state ∈ r.order := fun state => (horder.mem_iff state).2
  induction rest generalizing position with
  | nil =>
    -- Behind the last word there is only one row, and no arc that consumes a word is taken.
    intro k hk
    obtain rfl : k = 0 := Nat.le_zero.1 hk
    obtain rfl : position = input.length := hlength
    refine ⟨_, rfl, fun state hstate hmark => ?_⟩
    refine optimal_row horder.nodup hlt horder.forward (hclosed.pass _ (Nat.le_refl _))
      (fun _ _ arc _ _ => ?_) state (hmem state hstate) hmark
    intro skipped token behind heq
    simp at heq
  | cons token rest ih =>
    rw [List.length_cons] at hlength
    have hposition : input.length - (rest.length + 1) = position := by omega
    have hdrop : input.drop (position + 1) = rest := by
      rw [← List.drop_drop, hrest, List.drop_one, List.tail_cons]
    have hlater := ih hdrop (by omega)
    intro k hk
    cases k with
    | zero =>
      refine ⟨_, rfl, fun state hstate hmark => ?_⟩
      rw [hposition]
      refine optimal_row horder.nodup hlt horder.forward (hclosed.pass position (by omega))
        (fun state hmark arc harc hallowed => ?_) state (hmem state hstate) hmark
      -- Behind a word that is consumed the rows of the later positions are known.
      intro skipped next behind heq hword hskips
      have hlive := hclosed.take position state hmark arc harc hallowed skipped next behind
        (hrest.trans heq) hword hskips
      have hbehind : rest.drop skipped.length = behind := by
        have := congrArg (List.drop (skipped.length + 1)) heq
        simpa using this
      have hshorter := congrArg List.length heq
      rw [List.length_cons, List.length_append, List.length_cons] at hshorter
      obtain ⟨f, hf, hknown⟩ := hlater skipped.length (by omega)
      have hadd : position + 1 + skipped.length = position + skipped.length + 1 := by omega
      rw [hbehind, hadd] at hknown
      exact ⟨f, hf, hknown arc.target (ha.target_lt state arc harc) hlive true⟩
    | succ k =>
      obtain ⟨f, hf, hknown⟩ := hlater k (Nat.le_of_succ_le_succ hk)
      refine ⟨f, hf, ?_⟩
      have hadd : position + (k + 1) = position + 1 + k := by omega
      rw [hadd]
      exact hknown

/-! ### Live pairs -/

/-- A word that can be consumed behind some that can be skipped is among the occurrences. -/
theorem mem_occurrences {skipped behind : List InputToken} {token : InputToken} (n cost : Nat)
    {c : Nat} (h : InputToken.skipAll? skipped = some c) :
    (n + skipped.length, cost + c) ∈
      InputToken.occurrences token.word n cost (skipped ++ token :: behind) := by
  induction skipped generalizing n cost c with
  | nil =>
    cases h
    rw [List.nil_append, InputToken.occurrences, if_pos rfl]
    exact List.mem_cons_self
  | cons first skipped ih =>
    obtain ⟨c, d, hfirst, hrest, rfl⟩ := skipAll?_cons.1 h
    have hmem := ih (n + 1) (cost + c) hrest
    rw [Nat.add_assoc, Nat.add_comm 1, Nat.add_assoc] at hmem
    rw [List.cons_append, InputToken.occurrences, hfirst]
    dsimp only
    split
    · exact List.mem_cons_of_mem _ hmem
    · exact hmem

theorem key_lt {position state length : Nat} (hposition : position ≤ length)
    (hstate : state < r.automaton.size) :
    r.key position state < (length + 1) * r.automaton.size := by
  calc position * r.automaton.size + state
      < position * r.automaton.size + r.automaton.size := Nat.add_lt_add_left hstate _
    _ = (position + 1) * r.automaton.size := (Nat.succ_mul _ _).symm
    _ ≤ (length + 1) * r.automaton.size := Nat.mul_le_mul_right _ (Nat.succ_le_succ hposition)

/-- A pair of position and state is found in its number. -/
theorem key_div_mod {position state : Nat} (hstate : state < r.automaton.size) :
    r.key position state / r.automaton.size = position ∧
      r.key position state % r.automaton.size = state := by
  rw [key, Nat.mul_comm]
  exact ⟨by rw [Nat.mul_add_div (by omega), Nat.div_eq_of_lt hstate, Nat.add_zero],
    by rw [Nat.mul_add_mod, Nat.mod_eq_of_lt hstate]⟩

/-- An arc that consumes nothing keeps the position. -/
theorem mem_followers_of_none {input : List InputToken} {position state : Nat}
    {arc : Automaton.Arc} (harc : arc ∈ r.automaton.arcs state)
    (hallowed : arc.isAllowed r.filter = true) (hinput : arc.input = none) :
    r.key position arc.target ∈ r.followers input.toArray (r.key position state) := by
  obtain ⟨hposition, hstate⟩ := r.key_div_mod (Automaton.lt_size_of_mem_arcs harc)
  rw [followers, hposition, hstate]
  refine List.mem_flatMap.2 ⟨arc, List.mem_filter.2 ⟨harc, hallowed⟩, ?_⟩
  rw [hinput]
  exact List.mem_singleton.2 rfl

/-- An arc that consumes a word leads behind each place of the word that is in reach. -/
theorem mem_followers_of_some {input : List InputToken} {position state : Nat}
    {arc : Automaton.Arc} {word : String} {place : Nat × Nat}
    (harc : arc ∈ r.automaton.arcs state) (hallowed : arc.isAllowed r.filter = true)
    (hinput : arc.input = some word)
    (hplace : place ∈ InputToken.occurrences word 0 0 (input.drop position)) :
    r.key (position + place.1 + 1) arc.target ∈
      r.followers input.toArray (r.key position state) := by
  obtain ⟨hposition, hstate⟩ := r.key_div_mod (Automaton.lt_size_of_mem_arcs harc)
  have hrest : (input.toArray.extract position).toList = input.drop position := by
    simp [List.take_of_length_le]
  rw [followers, hposition, hstate, hrest]
  refine List.mem_flatMap.2 ⟨arc, List.mem_filter.2 ⟨harc, hallowed⟩, ?_⟩
  rw [hinput]
  exact List.mem_map.2 ⟨place, hplace, rfl⟩

/-- The live pairs are closed under what an alignment can come to next. -/
theorem closed_reachable (ha : r.automaton.WellFormed) (input : List InputToken) :
    r.Closed input fun position state => (r.reachable input).contains (r.key position state) := by
  have hsearch := (@Graph.contains_reach ((input.length + 1) * r.automaton.size)
    (r.followers input.toArray) [r.key 0 r.automaton.start] (.none _) (by simp)).2.2
  constructor
  · intro position hposition state hmark arc harc hallowed hinput
    exact hsearch _ hmark _ (mem_followers_of_none harc hallowed hinput)
      (key_lt hposition (ha.target_lt state arc harc))
  · intro position state hmark arc harc hallowed skipped token behind hdrop hinput hskips
    obtain ⟨cost, hcost⟩ := Option.isSome_iff_exists.1 hskips
    have hlength := congrArg List.length hdrop
    rw [List.length_drop, List.length_append, List.length_cons] at hlength
    have hmem := @mem_occurrences _ behind token 0 0 _ hcost
    rw [Nat.zero_add, Nat.zero_add, ← hdrop] at hmem
    exact hsearch _ hmark _ (mem_followers_of_some harc hallowed hinput hmem)
      (key_lt (by omega) (ha.target_lt state arc harc))

/-- What is found is the best of all alignments of the words. -/
theorem optimal_bestAlignment (ha : r.automaton.WellFormed)
    (horder : Graph.IsOrder r.automaton.size r.automaton.silentTargets r.order)
    (tokens : List String) :
    Optimal (r.Continues (r.input tokens) 0 r.automaton.start false) (r.bestAlignment tokens) := by
  have hclosed := closed_reachable ha (r.input tokens)
  obtain ⟨f, hf, hknown⟩ := optimal_rows ha horder hclosed List.drop_zero
    (Nat.zero_add _) 0 (Nat.zero_le _)
  have hstart : (r.reachable (r.input tokens)).contains (r.key 0 r.automaton.start) = true :=
    (Graph.contains_reach (by simp)).2.1 _ List.mem_cons_self
      (key_lt (Nat.zero_le _) ha.start_lt)
  have hbest := hknown r.automaton.start ha.start_lt hstart false
  rw [← List.head?_eq_getElem?] at hf
  rw [bestAlignment]
  simp only [Option.bind_eq_bind, hf, Option.bind_some]
  exact hbest

end FuzzyRecognizer

end Phrasebook
