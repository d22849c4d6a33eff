import Phrasebook.Graph.Order
import Phrasebook.Slots

/-!
# What has to be built before what

Slots, rules and intents are built into automata of their own, and what a template refers to
has to be built before it. The graph of these needs keeps its nodes and edges in the order in
which they are first mentioned; `DependencyGraph.buildOrder` lists the nodes so that everything
comes after what it needs, or reports the nodes of a cycle.
-/

namespace Phrasebook

/-- What is built into an automaton of its own. -/
inductive Node
  /-- The values of a slot. -/
  | slot (name : String)
  /-- A rule, by its qualified name. -/
  | rule (qualified : String)
  /-- The sentences of an intent. -/
  | intent (name : String)
  deriving DecidableEq, Repr, Inhabited

/-- How a node is related to an intent. -/
inductive NodeKind
  /-- It is an intent. -/
  | intent
  /-- It is a rule of the intent. -/
  | localRule
  /-- It is a rule of another intent. -/
  | remoteRule
  /-- It is a slot. -/
  | slot
  deriving DecidableEq, Repr

namespace Node

/-- How the node is related to an intent. -/
def kind (intent : String) : Node → NodeKind
  | slot _ => .slot
  | Node.intent _ => .intent
  | rule qualified =>
    match Text.cut '.' qualified with
    | some (owner, _) => if owner = intent then .localRule else .remoteRule
    | none => .remoteRule

/-- The name under which the node's automaton is kept. -/
def artifactName : Node → String
  | slot name => "$" ++ name
  | rule qualified => qualified
  | intent name => name

/-- The node in the notation of grammar files. -/
def text : Node → String
  | slot name => "$" ++ name
  | rule qualified => "<" ++ qualified ++ ">"
  | intent name => "[" ++ name ++ "]"

/-- What a reference names when it is made for an intent. -/
def ofReference (intent : String) : Reference → Node
  | .rule name => rule (name.qualified intent)
  | .slot name => slot name

/-- The place of the node's kind in listings: slots, then rules, then intents. -/
def rank : Node → Nat
  | slot _ => 0
  | rule _ => 1
  | intent _ => 2

/-- The name inside the node's kind. -/
def name : Node → String
  | slot name => name
  | rule qualified => qualified
  | intent name => name

/-- The order of listings: by kind, then by name. -/
def le (a b : Node) : Bool :=
  a.rank < b.rank || (a.rank == b.rank && decide (a.name ≤ b.name))

end Node

/-- Which nodes are needed to build which. -/
structure DependencyGraph where
  /-- The nodes in the order of their first mention. -/
  nodes : List Node
  /-- The pairs of a node and one that needs it, in the order of their first mention. -/
  needs : List (Node × Node)

namespace DependencyGraph

/-- The graph without nodes. -/
def empty : DependencyGraph := ⟨[], []⟩

instance : Inhabited DependencyGraph := ⟨empty⟩

/-- The graph in which a node is mentioned. -/
def mention (g : DependencyGraph) (node : Node) : DependencyGraph :=
  if node ∈ g.nodes then g else { g with nodes := g.nodes ++ [node] }

/-- The graph in which `dependent` needs `needed`. -/
def add (g : DependencyGraph) (needed dependent : Node) : DependencyGraph :=
  let g := (g.mention needed).mention dependent
  if (needed, dependent) ∈ g.needs then g
  else { g with needs := g.needs ++ [(needed, dependent)] }

/-- The graph in which `dependent` needs each of some nodes. -/
def addAll (g : DependencyGraph) (needed : List Node) (dependent : Node) : DependencyGraph :=
  needed.foldl (fun g node => g.add node dependent) g

/-- Whether the graph has a node. -/
def contains (g : DependencyGraph) (node : Node) : Bool := decide (node ∈ g.nodes)

/-- The nodes that a node needs, in the order of listings. -/
def needsOf (g : DependencyGraph) (node : Node) : List Node :=
  ((g.needs.filter (·.2 = node)).map Prod.fst).mergeSort Node.le

/-- What is needed within one intent: for its sentences, and then for each of its rules. -/
def ofSection (s : Section) : DependencyGraph :=
  let target := Node.intent s.intent
  let g := (empty.mention target).addAll
    ((s.sentences.flatMap Template.references).map (.ofReference s.intent)) target
  s.rules.entries.foldl (fun g (rule, body) =>
    let node := Node.rule (s.intent ++ "." ++ rule)
    (g.mention node).addAll (body.references.map (.ofReference s.intent)) node) g

/-- Whether a reference that is made for an intent names something that is defined. -/
def isDefined (rules : List String) (slots : WordSet) (intent : String) : Reference → Bool
  | .rule name => rules.contains (name.qualified intent)
  | .slot name => slots.contains name

/-- The node of a reference that is made for an intent, which has to be defined. -/
def resolve (rules : List String) (slots : WordSet) (intent : String) (reference : Reference) :
    Except Error Node :=
  if isDefined rules slots intent reference then .ok (.ofReference intent reference)
  else .error (.unresolved reference intent)

/-- The qualified names of the rules of a grammar. -/
def definedRules (grammar : Grammar) : List String :=
  grammar.flatMap fun s => s.rules.names.map fun rule => s.intent ++ "." ++ rule

/-- Adds what is needed within one intent of a grammar: for each of its rules, and then for its
sentences. -/
def addSection (rules : List String) (slots : WordSet) (g : DependencyGraph) (s : Section) :
    Except Error DependencyGraph := do
  -- The intent is mentioned before its rules, although its sentences come last.
  let target := Node.intent s.intent
  let g ← s.rules.entries.foldlM (fun g (rule, body) => do
    let node := Node.rule (s.intent ++ "." ++ rule)
    let needed ← body.references.mapM (resolve rules slots s.intent)
    return (g.mention node).addAll needed node) (g.mention target)
  let needed ← (s.sentences.flatMap Template.references).mapM (resolve rules slots s.intent)
  return g.addAll needed target

/-- What is needed within a grammar, all of whose references have to be defined. -/
def ofGrammar (grammar : Grammar) (slots : WordSet) : Except Error DependencyGraph :=
  grammar.foldlM (addSection (definedRules grammar) slots) empty

/-- The needs as pairs of positions among the nodes. -/
def edges (g : DependencyGraph) : List (Nat × Nat) :=
  g.needs.map fun (needed, dependent) => (g.nodes.idxOf needed, g.nodes.idxOf dependent)

/-- The nodes at some positions. -/
def nodesAt (g : DependencyGraph) (positions : List Nat) : List Node :=
  positions.filterMap fun i => g.nodes[i]?

/-- The texts of the nodes that need each other together with the node at a position. -/
def cycleThrough (g : DependencyGraph) (position : Nat) : List String :=
  let n := g.nodes.length
  -- The nodes of the cycle are found along the edges as well as against them.
  let successors := Graph.index n g.edges
  let predecessors := Graph.index n (g.edges.map Prod.swap)
  let members := Graph.component n (Graph.lookup successors) (Graph.lookup predecessors) position
  ((g.nodesAt members).map Node.text).mergeSort (fun a b => decide (a ≤ b))

/-- The nodes in an order in which everything comes after what it needs. -/
def buildOrder (g : DependencyGraph) : Except Error (List Node) :=
  match Graph.orderOfEdges g.nodes.length g.edges with
  | .ok order => .ok (g.nodesAt order)
  | .error position => .error (.cyclic (g.cycleThrough position))

end DependencyGraph

end Phrasebook
