import Phrasebook.Intent

/-!
# Phrases

The markers of a run's output nest: what they enclose is a tree. A *phrase* is a word, a
substitution, or an entity around other phrases, and a *transcript* is a list of phrases, of
which some may stand inside an intent. This file says what a transcript means without reading
its symbols one by one.

* `Phrase.symbols`, `Transcript.symbols`: the symbols that are put out for a tree.
* `Phrase.rawWords`, `Phrase.words`: the matched and the reported words.
* `Phrase.entities`: the entities with their spans, in the order in which they are opened.
* `Transcript.intent`: the intent that is meant.
-/

namespace Phrasebook

/-- Output whose markers nest. -/
inductive Phrase
  /-- A word that is reported as it was matched. -/
  | word (text : String)
  /-- Matched words that are reported as other words. -/
  | substitution (raw value : String)
  /-- An entity around other phrases; a given value stands for their words. -/
  | entity (slot : String) (value : Option String) (inner : List Phrase)
  deriving Repr, Inhabited

namespace Phrase

mutual

/-- The symbols of a phrase. -/
def symbols : Phrase → List Symbol
  | word text => [.word text]
  | substitution raw value => [.substitution raw value]
  | entity slot value inner => .openEntity slot value :: symbolsOf inner ++ [.closeEntity]

/-- The symbols of some phrases. -/
def symbolsOf : List Phrase → List Symbol
  | [] => []
  | p :: ps => symbols p ++ symbolsOf ps

end

mutual

/-- The words that are matched. -/
def rawWords : Phrase → List String
  | word text => [text]
  | substitution raw _ => Text.words raw
  | entity _ _ inner => rawWordsOf inner

/-- The words that are matched by some phrases. -/
def rawWordsOf : List Phrase → List String
  | [] => []
  | p :: ps => rawWords p ++ rawWordsOf ps

end

mutual

/-- The words that are reported. The value of an entity takes the place of everything inside. -/
def words : Phrase → List String
  | word text => [text]
  | substitution _ value => Text.words value
  | entity _ none inner => wordsOf inner
  | entity _ (some value) _ => Text.words value

/-- The words that are reported for some phrases. -/
def wordsOf : List Phrase → List String
  | [] => []
  | p :: ps => words p ++ wordsOf ps

end

mutual

/-- The entities of a phrase before which `start` words are reported and `rawStart` words are
matched. Inside an entity with a value, `span` is the span of the outermost such entity, which
all of them cover. -/
def entities (span : Option (Nat × Nat)) (start rawStart : Nat) : Phrase → List Entity
  | word _ | substitution _ _ => []
  | entity slot value inner =>
    let reported := words (entity slot value inner)
    let raw := rawWordsOf inner
    let (first, last) := span.getD (start, start + reported.length)
    let inside := if value.isSome then some (first, last) else span
    { name := slot
      value := Text.joinWords reported
      rawValue := Text.joinWords raw
      start := first
      stop := last
      rawStart
      rawStop := rawStart + raw.length } :: entitiesOf inside start rawStart inner

/-- The entities of some phrases. -/
def entitiesOf (span : Option (Nat × Nat)) (start rawStart : Nat) : List Phrase → List Entity
  | [] => []
  | p :: ps =>
    entities span start rawStart p ++
      entitiesOf span (start + (words p).length) (rawStart + (rawWords p).length) ps

end

variable {ps qs : List Phrase}

@[simp]
theorem symbolsOf_append : symbolsOf (ps ++ qs) = symbolsOf ps ++ symbolsOf qs := by
  induction ps with
  | nil => rfl
  | cons p ps ih => simp [symbolsOf, ih]

@[simp]
theorem rawWordsOf_append : rawWordsOf (ps ++ qs) = rawWordsOf ps ++ rawWordsOf qs := by
  induction ps with
  | nil => rfl
  | cons p ps ih => simp [rawWordsOf, ih]

@[simp]
theorem wordsOf_append : wordsOf (ps ++ qs) = wordsOf ps ++ wordsOf qs := by
  induction ps with
  | nil => rfl
  | cons p ps ih => simp [wordsOf, ih]

theorem entitiesOf_append {span : Option (Nat × Nat)} {start rawStart : Nat} :
    entitiesOf span start rawStart (ps ++ qs) =
      entitiesOf span start rawStart ps ++
        entitiesOf span (start + (wordsOf ps).length) (rawStart + (rawWordsOf ps).length) qs := by
  induction ps generalizing start rawStart with
  | nil => simp [entitiesOf, wordsOf, rawWordsOf]
  | cons p ps ih => simp [entitiesOf, wordsOf, rawWordsOf, ih, Nat.add_assoc]

end Phrase

/-- Phrases, of which some may stand inside an intent. -/
inductive Transcript
  /-- No phrase stands inside an intent. -/
  | plain (phrases : List Phrase)
  /-- Some phrases stand inside an intent, others before and after it. -/
  | named (before : List Phrase) (name : String) (inside after : List Phrase)
  deriving Repr, Inhabited

namespace Transcript

/-- The phrases in their order. -/
def phrases : Transcript → List Phrase
  | plain phrases => phrases
  | named before _ inside after => before ++ inside ++ after

/-- The name of the intent. -/
def name? : Transcript → Option String
  | plain _ => none
  | named _ name _ _ => some name

/-- The symbols in their order. -/
def symbols : Transcript → List Symbol
  | plain phrases => Phrase.symbolsOf phrases
  | named before name inside after =>
    Phrase.symbolsOf before ++ .openIntent name :: Phrase.symbolsOf inside ++
      .closeIntent :: Phrase.symbolsOf after

/-- The intent that is meant. -/
def intent (t : Transcript) : Intent where
  text := Text.joinWords (Phrase.wordsOf t.phrases)
  rawText := Text.joinWords (Phrase.rawWordsOf t.phrases)
  tokens := Phrase.wordsOf t.phrases
  rawTokens := Phrase.rawWordsOf t.phrases
  name := t.name?
  confidence := if t.name?.isSome then 1 else 0
  entities := Phrase.entitiesOf none 0 0 t.phrases

end Transcript

end Phrasebook
