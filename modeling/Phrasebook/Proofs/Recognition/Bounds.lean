import Mathlib.Algebra.Group.Nat.Defs
import Phrasebook.Proofs.Recognition.SilentRank

/-!
# Costs and lengths stay small

The costs of words are added up as natural numbers, and so are the arcs of an alignment counted. No
large numbers come up. A word is paid for at most once, so no sum exceeds what all words cost
together, and that is at most ten for each. An alignment comes to a pair of a position and a state
at most once, since arcs that consume nothing lead to states of a higher rank.

So the sums are the same when they are taken in 32 bits, as long as there are fewer than 429,496,730
words.

* `InputToken.total`: what all words cost together.
* `FuzzyRecognizer.Continues.cost_le`, `FuzzyRecognizer.Continues.arcs_lt`: how an alignment may go
  on from a position and a state.
* `FuzzyRecognizer.total_input_lt`: no cost wraps in 32 bits.
* `FuzzyRecognizer.small_of_new`: the alignments that a recognizer looks at.
-/

namespace Phrasebook

namespace InputToken

variable {input : List InputToken} {cost : Nat}

/-- What all words cost together. Words that cannot be skipped cost nothing. -/
def total : List InputToken → Nat
  | [] => 0
  | t :: ts => t.cost?.getD 0 + total ts

theorem total_append {before behind : List InputToken} :
    total (before ++ behind) = total before + total behind := by
  induction before with
  | nil => exact (Nat.zero_add _).symm
  | cons t before ih => rw [List.cons_append, total, total, ih, Nat.add_assoc]

/-- When all words may be skipped, then skipping them costs their total. -/
theorem total_eq_of_skipAll? (h : skipAll? input = some cost) : total input = cost := by
  induction input generalizing cost with
  | nil => exact Option.some.inj h
  | cons t input ih =>
    obtain ⟨c, d, hc, hd, rfl⟩ := FuzzyRecognizer.skipAll?_cons.1 h
    rw [total, hc, ih hd, Option.getD_some]

end InputToken

namespace FuzzyRecognizer

variable {r : FuzzyRecognizer} {leniency : Leniency} {filter : Option WordSet}
  {tokens : List String} {rest : List InputToken} {position state : Nat} {begun : Bool}
  {choices : List Nat} {a : Alignment}

/-! ### From a position and a state on -/

/-- An alignment pays for each of its words at most once. -/
theorem Continues.cost_le (h : r.Continues rest position state begun choices a) :
    a.cost ≤ InputToken.total rest := by
  induction h with
  | stop _ skips => exact Nat.le_of_eq (InputToken.total_eq_of_skipAll? skips).symm
  | pass _ _ _ _ ih => exact ih
  | @take _ rest token _ _ _ cost _ _ _ b _ _ _ skips _ ih =>
    rw [InputToken.total_append, InputToken.total, InputToken.total_eq_of_skipAll? skips]
    change cost + b.cost ≤ _
    omega

/-- An alignment takes fewer arcs than there are pairs of a position and a state: an arc leads to a
higher rank, or behind a word. -/
theorem Continues.arcs_lt (ha : r.automaton.WellFormed)
    (hr : new r.automaton leniency filter = .ok r) (hstate : state < r.automaton.size)
    (h : r.Continues rest position state begun choices a) :
    a.arcs + r.rank state < (rest.length + 1) * r.automaton.size := by
  induction h with
  | stop _ _ =>
    rw [Alignment.stop, Nat.zero_add, Nat.succ_mul]
    exact Nat.lt_add_left _ (rank_lt ha hr hstate)
  | @pass _ _ state _ arc _ _ b first _ silent _ ih =>
    have harc := List.mem_of_getElem? first
    have hrank : r.rank state < r.rank arc.target :=
      rank_lt_of_mem_arcs ha hr harc (Automaton.Arc.isSilent_of_input_eq_none silent)
    have hbehind := ih (ha.target_lt _ _ harc)
    change b.arcs + 1 + r.rank state < _
    omega
  | @take skipped rest token _ state _ _ arc _ _ b first _ _ _ _ ih =>
    -- Behind the word there is one position less, which leaves room for the ranks of this one.
    have hrank := rank_lt ha hr hstate
    have hbehind := ih (ha.target_lt _ _ (List.mem_of_getElem? first))
    calc b.arcs + 1 + r.rank state
      _ < (rest.length + 1) * r.automaton.size + r.automaton.size := by omega
      _ = (rest.length + 1 + 1) * r.automaton.size := (Nat.succ_mul _ _).symm
      _ ≤ ((skipped ++ token :: rest).length + 1) * r.automaton.size := by
        refine Nat.mul_le_mul_right _ ?_
        rw [List.length_append, List.length_cons]
        omega

/-! ### All words of an input -/

/-- The words of an input cost at most ten each. -/
theorem total_input_le :
    InputToken.total (r.input tokens) ≤ Leniency.skipCost * tokens.length := by
  induction tokens with
  | nil => exact Nat.zero_le _
  | cons word tokens ih =>
    have hword : (r.leniency.cost? word).getD 0 ≤ Leniency.skipCost := by
      cases hcost : r.leniency.cost? word with
      | none => exact Nat.zero_le _
      | some c => exact Leniency.cost?_le hcost
    calc InputToken.total (r.input (word :: tokens))
      _ = (r.leniency.cost? word).getD 0 + InputToken.total (r.input tokens) := rfl
      _ ≤ Leniency.skipCost + Leniency.skipCost * tokens.length := Nat.add_le_add hword ih
      _ = Leniency.skipCost * (word :: tokens).length := by
        rw [List.length_cons, Nat.mul_succ, Nat.add_comm]

/-- The costs of fewer than 429,496,730 words are added up in 32 bits as they are here. -/
theorem total_input_lt (hlength : tokens.length < 429496730) :
    InputToken.total (r.input tokens) < 2 ^ 32 := by
  have hle : InputToken.total (r.input tokens) ≤ 10 * tokens.length := total_input_le
  omega

/-- With one word more, a sum may wrap. -/
example : 2 ^ 32 ≤ Leniency.skipCost * 429496730 := by decide

/-- No large numbers come up when a recognizer looks for the best alignment of some words. However
the input is divided, let an alignment of the words behind the division go on from any state. With
what the words before cost, its cost is at most ten for each word, which fits 32 bits when there are
fewer than 429,496,730 words. Its arcs are fewer than the pairs of a position and a state that are
left. -/
theorem small_of_new {a : Automaton} (ha : a.WellFormed) (hr : new a leniency filter = .ok r)
    {before : List InputToken} (hinput : r.input tokens = before ++ rest) (hstate : state < a.size)
    {b : Alignment} (h : r.Continues rest position state begun choices b) :
    InputToken.total before + b.cost ≤ Leniency.skipCost * tokens.length ∧
      (tokens.length < 429496730 → InputToken.total before + b.cost < 2 ^ 32) ∧
      b.arcs < (rest.length + 1) * a.size := by
  obtain ⟨rfl, -⟩ := isOrder_of_new ha hr
  have hle : InputToken.total before + b.cost ≤ InputToken.total (r.input tokens) := by
    rw [hinput, InputToken.total_append]
    exact Nat.add_le_add_left h.cost_le _
  refine ⟨Nat.le_trans hle total_input_le, fun hlength => ?_, ?_⟩
  · exact Nat.lt_of_le_of_lt hle (total_input_lt hlength)
  · exact Nat.lt_of_le_of_lt (Nat.le_add_right _ _) (h.arcs_lt ha hr hstate)

/-- What is found costs at most ten for each word, and takes fewer arcs than there are pairs of a
position and a state. -/
theorem found_small_of_new {a : Automaton} (ha : a.WellFormed)
    (hr : new a leniency filter = .ok r) {found : Alignment}
    (hfound : r.bestAlignment tokens = some found) :
    found.cost ≤ Leniency.skipCost * tokens.length ∧
      (tokens.length < 429496730 → found.cost < 2 ^ 32) ∧
      found.arcs < (tokens.length + 1) * a.size := by
  obtain ⟨rfl, horder⟩ := isOrder_of_new ha hr
  have hbest := optimal_bestAlignment ha horder tokens
  rw [hfound] at hbest
  obtain ⟨choices, hchoices, -⟩ := hbest
  have hsmall := small_of_new ha hr (List.nil_append _).symm ha.start_lt hchoices
  rwa [InputToken.total, Nat.zero_add, input, List.length_map] at hsmall

end FuzzyRecognizer

end Phrasebook
