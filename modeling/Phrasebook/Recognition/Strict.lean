import Phrasebook.Recognition.Basic

/-!
# Strict recognition

Strict recognition looks for a run that consumes exactly the given words. It searches depth
first, taking the arcs of a state in their order, and comes to each pair of a state and a rest
of the words only once. The first run that is found counts.
-/

namespace Phrasebook

/-- How words are matched exactly. -/
structure StrictRecognizer where
  /-- The automaton whose runs are looked for. -/
  automaton : Automaton
  /-- The words that its runs can consume. -/
  vocabulary : WordSet
  /-- Words outside of the vocabulary are dropped first. -/
  dropUnknown : Bool
  /-- The intents that may be found; without a set all may. -/
  filter : Option WordSet

namespace StrictRecognizer

/-- The recognizer of an automaton. -/
def new (automaton : Automaton) (dropUnknown : Bool) (filter : Option WordSet) :
    StrictRecognizer :=
  { automaton, vocabulary := automaton.vocabulary, dropUnknown, filter }

/-- A point of the search. -/
structure Visit where
  /-- The state that has been reached. -/
  state : Nat
  /-- The words that are left. -/
  rest : List String
  /-- The symbols that have been put out, last first. -/
  output : List Symbol

namespace Visit

/-- The number of the pair of state and rest, when there are fewer than `width` rests. -/
def key (width : Nat) (v : Visit) : Nat := v.state * width + v.rest.length

/-- What comes after an arc, unless the arc consumes another word than the next. -/
def follow? (v : Visit) (arc : Automaton.Arc) : Option Visit :=
  let output := arc.output.toList ++ v.output
  match arc.input, v.rest with
  | none, rest => some ⟨arc.target, rest, output⟩
  | some word, token :: rest => if word = token then some ⟨arc.target, rest, output⟩ else none
  | some _, [] => none

end Visit

/-- The output of the first run that is found from the points in `todo`. -/
def search {n : Nat} (r : StrictRecognizer) (width : Nat) (todo : List Visit) (seen : Marks n) :
    Option (List Symbol) :=
  match todo with
  | [] => none
  | v :: rest =>
    if seen.isNew (v.key width) then
      if v.rest.isEmpty && r.automaton.isFinal v.state then some v.output.reverse
      else
        -- What comes after the first arc is searched before the second arc is looked at.
        let next := (r.automaton.allowedArcs r.filter v.state).filterMap v.follow?
        search r width (next ++ rest) (seen.mark (v.key width))
    else search r width rest seen
termination_by (seen.unmarked, todo.length)
decreasing_by
  · exact Prod.Lex.left _ _ (Marks.unmarked_mark_lt ‹_›)
  · exact Prod.Lex.right _ (Nat.lt_succ_self _)

/-- The output of the first run that consumes the words. -/
def findPath (r : StrictRecognizer) (tokens : List String) : Option (List Symbol) :=
  let width := tokens.length + 1
  r.search width [⟨r.automaton.start, tokens, []⟩] (.none (r.automaton.size * width))

/-- The words that are matched. -/
def kept (r : StrictRecognizer) (tokens : List String) : List String :=
  if r.dropUnknown then tokens.filter r.vocabulary.contains else tokens

/-- The intent in some words. A run whose output does not decode is no match. -/
def recognize (r : StrictRecognizer) (tokens : List String) : Recognition :=
  let kept := r.kept tokens
  -- Without words there is no match, although a run may consume nothing.
  let found := if kept.isEmpty then none else r.findPath kept
  match found.map Intent.ofSymbols with
  | some (.ok intent) => ⟨intent, none⟩
  | _ => ⟨.noMatch tokens, none⟩

end StrictRecognizer

end Phrasebook
