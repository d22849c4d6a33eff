import Phrasebook.Recognition.Basic

/-!
# Fuzzy recognition

Fuzzy recognition looks for an *alignment*: a run whose words occur among the given words in
order. The words between them are skipped, which costs one for a stop word and ten for another
word; some words cannot be skipped. At least one word has to be matched.

The cheapest alignment is found from the end of the input backwards. For every position and
every state that some alignment can come to there, the best continuation is kept: the cheapest,
of these the one with the fewest arcs, and of these the first. Two continuations are kept, as
runs may stop only after a word was matched. Within a position the states are visited against
the order of the arcs that consume nothing.

Costs and their sums are natural numbers. Sums of 32 bits are the same for fewer than 429,496,730
words: at ten for each word no sum reaches `2 ^ 32` (`FuzzyRecognizer.total_input_lt`,
`FuzzyRecognizer.small_of_new`).
-/

namespace Phrasebook

/-- Which words may be left unmatched, and at what cost. -/
structure Leniency where
  /-- Words that are skipped cheaply. -/
  stopWords : WordSet
  /-- The words that are known; without a set all are. -/
  known : Option WordSet
  /-- Words that are not known may be skipped. -/
  skipUnknown : Bool

namespace Leniency

/-- The cost of skipping a stop word. -/
def stopWordCost : Nat := 1

/-- The cost of skipping another word. -/
def skipCost : Nat := 10

/-- The cost of skipping a word, if it may be skipped. -/
def cost? (l : Leniency) (word : String) : Option Nat :=
  if l.stopWords.contains word then some stopWordCost
  else if (l.known.map (·.contains word)).getD true || l.skipUnknown then some skipCost
  else none

end Leniency

/-- A word of the input with the cost of skipping it. -/
structure InputToken where
  /-- The word. -/
  word : String
  /-- The cost of skipping it, if it may be skipped. -/
  cost? : Option Nat
  deriving DecidableEq, Repr

namespace InputToken

/-- The cost of skipping all of some words. -/
def skipAll? : List InputToken → Option Nat
  | [] => some 0
  | t :: ts => do return (← t.cost?) + (← skipAll? ts)

/-- Where a word can be matched: the number of words that are skipped before it with their
cost, given the number and the cost of those that are skipped already. -/
def occurrences (word : String) (skipped cost : Nat) : List InputToken → List (Nat × Nat)
  | [] => []
  | t :: ts =>
    let later :=
      match t.cost? with
      | some c => occurrences word (skipped + 1) (cost + c) ts
      -- Nothing behind a word that cannot be skipped is in reach.
      | none => []
    -- The word may be matched here, or it is skipped and matched later.
    if t.word = word then (skipped, cost) :: later else later

end InputToken

/-- How a run continues from some state and position to its end. -/
structure Alignment where
  /-- The cost of the words that are skipped. -/
  cost : Nat
  /-- The number of arcs that are taken. -/
  arcs : Nat
  /-- The symbols that are put out. -/
  output : List Symbol
  /-- The positions of the words that are matched. -/
  used : List Nat
  deriving DecidableEq, Repr

namespace Alignment

/-- The run stops, and the remaining words are skipped. -/
def stop (cost : Nat) : Alignment := ⟨cost, 0, [], []⟩

/-- An arc is taken that consumes nothing. -/
def pass (arc : Automaton.Arc) (a : Alignment) : Alignment :=
  { a with arcs := a.arcs + 1, output := arc.output.toList ++ a.output }

/-- An arc is taken that consumes the word at a position, at the cost of skipping the words
before it. -/
def take (arc : Automaton.Arc) (skipped position : Nat) (a : Alignment) : Alignment :=
  ⟨skipped + a.cost, a.arcs + 1, arc.output.toList ++ a.output, position :: a.used⟩

/-- Whether an alignment is preferred to one that was found before. -/
def beats (a b : Alignment) : Bool := a.cost < b.cost || (a.cost == b.cost && a.arcs < b.arcs)

/-- The best of some alignments; of equally good ones the first. -/
def best (candidates : List Alignment) : Option Alignment :=
  -- A later one has to be strictly better.
  candidates.foldl (fun found a =>
    match found with
    | none => some a
    | some b => if a.beats b then some a else some b) none

end Alignment

/-- The best continuations from a state at a position. -/
structure Continuations where
  /-- The best one when no word has been matched yet. -/
  fresh : Option Alignment
  /-- The best one when some word has been matched. -/
  begun : Option Alignment
  deriving Inhabited

namespace Continuations

/-- No continuation. -/
def none : Continuations := ⟨.none, .none⟩

/-- The best continuation, with or without a word matched before. -/
def get (c : Continuations) (begun : Bool) : Option Alignment := if begun then c.begun else c.fresh

end Continuations

/-- How words are matched with words left over. -/
structure FuzzyRecognizer where
  /-- The automaton whose runs are looked for. -/
  automaton : Automaton
  /-- Its states, in an order in which arcs that consume nothing lead on. -/
  order : List Nat
  /-- Which words may be skipped. -/
  leniency : Leniency
  /-- The intents that may be found; without a set all may. -/
  filter : Option WordSet

namespace FuzzyRecognizer

/-- The recognizer of an automaton, in which no state may lead back to itself over arcs that
consume nothing. -/
def new (automaton : Automaton) (leniency : Leniency) (filter : Option WordSet) :
    Except Error FuzzyRecognizer :=
  match automaton.silentOrder with
  | .ok order => .ok { automaton, order, leniency, filter }
  | .error state => .error (.malformedPath (.silentCycle state))

variable (r : FuzzyRecognizer)

/-- The words of the input with the costs of skipping them. -/
def input (tokens : List String) : List InputToken :=
  tokens.map fun word => ⟨word, r.leniency.cost? word⟩

/-- The number of a pair of a position and a state. -/
def key (position state : Nat) : Nat := position * r.automaton.size + state

/-- The pairs of position and state that an alignment can come to next. -/
def followers (input : Array InputToken) (pair : Nat) : List Nat :=
  let position := pair / r.automaton.size
  let rest := (input.extract position).toList
  (r.automaton.allowedArcs r.filter (pair % r.automaton.size)).flatMap fun arc =>
    match arc.input with
    | none => [r.key position arc.target]
    | some word =>
      (InputToken.occurrences word 0 0 rest).map fun (skipped, _) =>
        r.key (position + skipped + 1) arc.target

/-- The pairs of position and state that some alignment can come to. -/
def reachable (input : List InputToken) : Marks ((input.length + 1) * r.automaton.size) :=
  Graph.reachable _ (r.followers input.toArray) [r.key 0 r.automaton.start]

/-- The continuations along an arc: `here` are those at this position, and `later` those behind
each of the words in `rest`. -/
def along (here : Nat → Continuations) (later : List (Nat → Continuations))
    (rest : List InputToken) (position : Nat) (begun : Bool) (arc : Automaton.Arc) :
    List Alignment :=
  match arc.input with
  | none => (((here arc.target).get begun).map (.pass arc)).toList
  | some word =>
    (InputToken.occurrences word 0 0 rest).filterMap fun (skipped, cost) => do
      -- Behind a word that is matched, the run may stop.
      let behind ← later[skipped]?
      return (← (behind arc.target).begun).take arc cost (position + skipped)

/-- The best continuation from a state, with or without a word matched before. -/
def bestFrom (here : Nat → Continuations) (later : List (Nat → Continuations))
    (rest : List InputToken) (position state : Nat) (begun : Bool) : Option Alignment :=
  let stops :=
    if begun && r.automaton.isFinal state then
      ((InputToken.skipAll? rest).map Alignment.stop).toList
    else []
  -- Stopping comes before any arc, and arcs come in their order.
  Alignment.best <|
    stops ++ (r.automaton.allowedArcs r.filter state).flatMap
      (along here later rest position begun)

/-- The continuations that a row of states gives to a state. -/
def inRow (row : Array Continuations) (state : Nat) : Continuations :=
  row[state]?.getD .none

/-- The continuations of every state at a position. Only the states that are `live` there are
looked at. -/
def row (live : Nat → Bool) (later : List (Nat → Continuations)) (rest : List InputToken)
    (position : Nat) : Array Continuations :=
  (r.order.reverse.filter live).foldl (fun row state =>
    -- Arcs that consume nothing lead to states later in the order, which are in the row already.
    let here := inRow row
    row.setIfInBounds state
      ⟨r.bestFrom here later rest position state false,
        r.bestFrom here later rest position state true⟩)
    (Array.replicate r.automaton.size .none)

/-- The rows of all positions from the one before `rest` on, where `total` is the length of the
whole input. -/
def rows {n : Nat} (live : Marks n) (total : Nat) : List InputToken → List (Nat → Continuations)
  | [] => [inRow (r.row (fun state => live.contains (r.key total state)) [] [] total)]
  | t :: ts =>
    let later := rows live total ts
    let position := total - (ts.length + 1)
    inRow (r.row (fun state => live.contains (r.key position state)) later (t :: ts) position) ::
      later

/-- The best alignment of some words. -/
def bestAlignment (tokens : List String) : Option Alignment := do
  let input := r.input tokens
  let first ← (r.rows (r.reachable input) input.length input).head?
  (first r.automaton.start).fresh

/-- The number of pairs of position and state that some alignment can come to. -/
def searchSize (tokens : List String) : Nat :=
  (r.reachable (r.input tokens)).count

/-- How sure a recognition is: from one for no cost down to zero for skipping every word. -/
def confidence (cost total : Nat) : Float32 :=
  let x := 1 - Float32.ofNat cost / (Float32.ofNat Leniency.skipCost * Float32.ofNat total)
  if x < 0 then 0 else x

/-- How some words were used when those at the given positions were matched. -/
def diagnose (tokens : List String) (used : List Nat) : Diagnostics where
  total := tokens.length
  matched := used.length
  skipped := tokens.length - used.length
  skippedStopWords :=
    tokens.zipIdx.countP fun (word, i) => !used.contains i && r.leniency.stopWords.contains word

/-- The intent in some words. An alignment whose output does not decode is no match. -/
def recognize (tokens : List String) : Recognition :=
  let found := if tokens.isEmpty then none else r.bestAlignment tokens
  match found.map fun a => (a, Intent.ofSymbols a.output) with
  | some (a, .ok intent) =>
    ⟨{ intent with confidence := confidence a.cost tokens.length },
      some (r.diagnose tokens a.used)⟩
  | _ => ⟨.noMatch tokens, some (r.diagnose tokens [])⟩

end FuzzyRecognizer

end Phrasebook
