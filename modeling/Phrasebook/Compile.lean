import Phrasebook.Template.Build
import Phrasebook.Text.Casing

/-!
# Compiling grammars

A grammar is compiled node by node in build order: each slot, each rule and the sentences of
each intent become an automaton of their own. The automata of the intents are then merged into
one, in which markers tell the intents apart.

References are checked before anything is built, and everything comes after what it needs, so
that what a template refers to is always among the parts that have been built.
-/

namespace Phrasebook

/-- The automata that have been built, in the order in which they were. -/
abbrev Parts := List (Node × Automaton)

namespace Parts

/-- The automaton of a node. -/
def find? (parts : Parts) (node : Node) : Option Automaton :=
  (List.find? (fun part => part.1 = node) parts).map Prod.snd

/-- The automaton of a node that has been built. -/
def resolve (parts : Parts) (node : Node) : Except Error Automaton :=
  match Parts.find? parts node with
  | some a => .ok a
  | none => .error (.missingArtifact node.artifactName)

end Parts

/-- What a grammar is compiled to. -/
structure Compiled where
  /-- The automaton of each intent, without its markers, in the order of the grammar. -/
  intents : List (String × Automaton)
  /-- The automaton of all intents. -/
  merged : Automaton
  /-- The automata of all nodes, in build order. -/
  parts : Parts

/-- The runs of any one of some intents, each between the markers of its intent. -/
def mergeIntents (intents : List (String × Automaton)) : Automaton :=
  .union (intents.map fun (name, a) => a.wrap (.openIntent name) .closeIntent)

/-- The names of the slots. -/
def Slots.nameSet (slots : Slots) : WordSet := ⟨slots.names, slots.increasing⟩

namespace Grammar

/-- The section of an intent. -/
def section? (grammar : Grammar) (intent : String) : Option Section :=
  grammar.find? (·.intent = intent)

/-- The template of a rule, with the intent that defines it. -/
def rule? (grammar : Grammar) (qualified : String) : Option (String × Template) := do
  let (owner, rule) ← Text.cut '.' qualified
  let body ← (← grammar.section? owner).rules.find? rule
  return (owner, body)

/-- The automaton of a node; `resolve` gives those of what it needs. -/
def buildNodeWith {m : Type → Type} [Monad m] [MonadExceptOf Error m] (grammar : Grammar)
    (slots : Slots) (resolve : Node → m Automaton) (node : Node) : m Automaton :=
  let missing := Error.missingArtifact node.artifactName
  match node with
  | .slot name =>
    match slots.find? name with
    | none => throw missing
    | some values => do
      -- The values refer to no rules, so it does not matter for which intent they are built.
      return .union (← Template.buildAll resolve ("$" ++ name) values)
  | .rule qualified =>
    match grammar.rule? qualified with
    | none => throw missing
    | some (owner, body) => body.build resolve owner
  | .intent name =>
    match grammar.section? name with
    | none => throw missing
    | some s => s.template.build resolve name

/-- The automaton of a node whose needs have been built. -/
def buildNode (grammar : Grammar) (slots : Slots) (parts : Parts) (node : Node) :
    Except Error Automaton :=
  grammar.buildNodeWith slots parts.resolve node

/-- The automata of some nodes, each after what it needs. -/
def buildNodes (grammar : Grammar) (slots : Slots) (order : List Node) : Except Error Parts :=
  order.foldlM (fun parts node => do
    return parts ++ [(node, ← grammar.buildNode slots parts node)]) []

/-- The nodes of the grammar and its slots, each after what it needs. References are checked
before anything is built. -/
def buildOrder (grammar : Grammar) (slots : Slots) : Except Error (List Node) := do
  (← DependencyGraph.ofGrammar grammar slots.nameSet).buildOrder

/-- The grammar and the slots compiled as they are. -/
def compileWords (grammar : Grammar) (slots : Slots) : Except Error Compiled := do
  let parts ← grammar.buildNodes slots (← grammar.buildOrder slots)
  let intents ← grammar.mapM fun s => do
    return (s.intent, ← parts.resolve (.intent s.intent))
  return { intents, merged := mergeIntents intents, parts }

/-- The grammar and the slots compiled with all words in the chosen case. -/
def compile (casing : Casing) (grammar : Grammar) (slots : Slots) : Except Error Compiled :=
  compileWords (grammar.map (Section.mapWords casing.apply)) (slots.mapWords casing.apply)

end Grammar

end Phrasebook
