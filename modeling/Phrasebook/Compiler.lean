import Phrasebook.Compile
import Phrasebook.Store

/-!
# Compilers

A compiler remembers the automata that it has built and may keep them in a store. What a template
refers to is looked for among those that it remembers, and then in the store. The automaton of all
intents is removed from the store before anything is built, and a new one is kept only when every
part has been built and kept, so that no automaton of an earlier grammar is left behind.
-/

namespace Phrasebook

/-- What grammars are compiled with. -/
structure Compiler where
  /-- What is done to the case of words. -/
  casing : Casing
  /-- Where automata are kept, if anywhere. -/
  store : Option Store
  /-- The automata that have been built. -/
  built : Parts

namespace Compiler

/-- A compiler that has built nothing. -/
def new (casing : Casing) (store : Option Store) : Compiler := ⟨casing, store, []⟩

variable {m : Type → Type} [Monad m] [Files m]

/-- The automaton of a node that was built or is kept. -/
def fetch (c : Compiler) (node : Node) : ExceptT Error m Automaton :=
  match Parts.find? c.built node, c.store with
  | some a, _ => return a
  | none, some store => store.read node.artifactName
  | none, none => throw (.missingArtifact node.artifactName)

/-- The automaton of a template that is part of `intent`. What it refers to was built or is
kept. Its words stay as they are. -/
def buildTemplate (c : Compiler) (intent : String) (t : Template) : ExceptT Error m Automaton :=
  t.build c.fetch intent

/-- Does something with the store, if there is one. -/
def withStore (c : Compiler) (action : Store → ExceptT Error m Unit) : ExceptT Error m Unit :=
  match c.store with
  | none => return ()
  | some store => action store

/-- Builds a node and keeps its automaton. -/
def buildNode (c : Compiler) (grammar : Grammar) (slots : Slots) (node : Node) :
    ExceptT Error m Automaton := do
  let a ← grammar.buildNodeWith slots c.fetch node
  c.withStore fun store => store.write node.artifactName a
  return a

/-- Builds some nodes one after another; also the compiler afterwards, which remembers the nodes
before one that could not be built or kept. -/
def buildNodes (grammar : Grammar) (slots : Slots) (c : Compiler) :
    List Node → m (Except Error Unit × Compiler)
  | [] => return (.ok (), c)
  | node :: order => do
    match ← (c.buildNode grammar slots node).run with
    | .error e => return (.error e, c)
    | .ok a => buildNodes grammar slots { c with built := c.built ++ [(node, a)] } order

/-- Puts the automata of the intents together, and keeps what they make. -/
def merge (c : Compiler) (grammar : Grammar) : ExceptT Error m Compiled := do
  let intents ← grammar.mapM fun s => do
    return (s.intent, ← c.fetch (.intent s.intent))
  let merged := mergeIntents intents
  c.withStore fun store => store.writeMerged merged
  return { intents, merged, parts := c.built }

/-- Compiles a grammar and slots as they are; also the compiler afterwards. -/
def compileWords (c : Compiler) (grammar : Grammar) (slots : Slots) :
    m (Except Error Compiled × Compiler) := do
  match grammar.buildOrder slots with
  | .error e => return (.error e, c)
  | .ok order =>
    match ← buildNodes grammar slots c order with
    | (.error e, c) => return (.error e, c)
    | (.ok (), c) => return (← (c.merge grammar).run, c)

/-- Compiles a grammar with all words in the compiler's case; also the compiler afterwards. -/
def compile (c : Compiler) (grammar : Grammar) (slots : Slots) :
    m (Except Error Compiled × Compiler) := do
  -- The automaton of an earlier grammar goes first, whatever happens afterwards.
  match ← (c.withStore Store.removeMerged).run with
  | .error e => return (.error e, c)
  | .ok () =>
    compileWords { c with built := [] } (grammar.map (Section.mapWords c.casing.apply))
      (slots.mapWords c.casing.apply)

end Compiler

end Phrasebook
