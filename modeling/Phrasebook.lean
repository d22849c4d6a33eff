import Phrasebook.Automaton.Artifact
import Phrasebook.Automaton.Basic
import Phrasebook.Automaton.Combine
import Phrasebook.Automaton.Reach
import Phrasebook.Automaton.Run
import Phrasebook.CommandLine.Arguments
import Phrasebook.CommandLine.Run
import Phrasebook.Compile
import Phrasebook.Compiler
import Phrasebook.Decimal.Numeral
import Phrasebook.Decimal.Shortest
import Phrasebook.Dependency
import Phrasebook.Error
import Phrasebook.Example.Basic
import Phrasebook.Example.Draws
import Phrasebook.Example.Enumerate
import Phrasebook.Example.Sample
import Phrasebook.Files.Basic
import Phrasebook.Files.Disk
import Phrasebook.Files.Path
import Phrasebook.Files.Sources
import Phrasebook.Files.Tree
import Phrasebook.Graph.Cycle
import Phrasebook.Graph.Marks
import Phrasebook.Graph.Order
import Phrasebook.Graph.Path
import Phrasebook.Graph.Reach
import Phrasebook.Graph.Worklist
import Phrasebook.Intent
import Phrasebook.Json.Basic
import Phrasebook.Json.Bytes
import Phrasebook.Json.Parser
import Phrasebook.Json.Printer
import Phrasebook.Json.Token
import Phrasebook.Main
import Phrasebook.Phrase
import Phrasebook.Profile
import Phrasebook.Proofs.Automaton.Acyclic
import Phrasebook.Proofs.Automaton.Artifact
import Phrasebook.Proofs.Automaton.Checked
import Phrasebook.Proofs.Automaton.Combine
import Phrasebook.Proofs.Automaton.Costless
import Phrasebook.Proofs.Automaton.Labels
import Phrasebook.Proofs.Automaton.Language
import Phrasebook.Proofs.Automaton.Reach
import Phrasebook.Proofs.Automaton.Safety
import Phrasebook.Proofs.Automaton.Shape
import Phrasebook.Proofs.Automaton.Simulation
import Phrasebook.Proofs.Automaton.Weights
import Phrasebook.Proofs.Automaton.Yield
import Phrasebook.Proofs.BuildOrder
import Phrasebook.Proofs.CommandLine.Compile
import Phrasebook.Proofs.Compile.Artifacts
import Phrasebook.Proofs.Compile.Building
import Phrasebook.Proofs.Compile.Entities
import Phrasebook.Proofs.Compile.Induction
import Phrasebook.Proofs.Compile.Keeping
import Phrasebook.Proofs.Compile.Meaning
import Phrasebook.Proofs.Compile.Permutation
import Phrasebook.Proofs.Compile.Phrases
import Phrasebook.Proofs.Compile.Shape
import Phrasebook.Proofs.Compile.Stored
import Phrasebook.Proofs.Compile.Substitution
import Phrasebook.Proofs.Compile.Success
import Phrasebook.Proofs.Compile.Vocabulary
import Phrasebook.Proofs.Decimal.Positive
import Phrasebook.Proofs.Decimal.Reading
import Phrasebook.Proofs.Decimal.Roundtrip
import Phrasebook.Proofs.Decimal.Single
import Phrasebook.Proofs.Decoding
import Phrasebook.Proofs.Decoding.Acceptance
import Phrasebook.Proofs.Decoding.Nesting
import Phrasebook.Proofs.Decoding.Spans
import Phrasebook.Proofs.Dependency
import Phrasebook.Proofs.Dependency.Listing
import Phrasebook.Proofs.Example.Checked
import Phrasebook.Proofs.Example.Enumerate
import Phrasebook.Proofs.Example.Interruption
import Phrasebook.Proofs.Example.Limits
import Phrasebook.Proofs.Example.Sample
import Phrasebook.Proofs.Example.Search
import Phrasebook.Proofs.Example.Tags
import Phrasebook.Proofs.Files.Disk
import Phrasebook.Proofs.Files.Keeping
import Phrasebook.Proofs.Files.Sources
import Phrasebook.Proofs.Files.Tree
import Phrasebook.Proofs.Grammar
import Phrasebook.Proofs.Grammar.Composition
import Phrasebook.Proofs.Graph.Checked
import Phrasebook.Proofs.Graph.Cycle
import Phrasebook.Proofs.Graph.Order
import Phrasebook.Proofs.Graph.Worklist
import Phrasebook.Proofs.Json.Numeral
import Phrasebook.Proofs.Json.Reading
import Phrasebook.Proofs.Outcome
import Phrasebook.Proofs.Recognition.Accounting
import Phrasebook.Proofs.Recognition.Agreement
import Phrasebook.Proofs.Recognition.Bounds
import Phrasebook.Proofs.Recognition.Checked
import Phrasebook.Proofs.Recognition.Confidence
import Phrasebook.Proofs.Recognition.Continuation
import Phrasebook.Proofs.Recognition.Decoded
import Phrasebook.Proofs.Recognition.Dropping
import Phrasebook.Proofs.Recognition.Filter
import Phrasebook.Proofs.Recognition.FirstRun
import Phrasebook.Proofs.Recognition.Insertion
import Phrasebook.Proofs.Recognition.Leniency
import Phrasebook.Proofs.Recognition.Matching
import Phrasebook.Proofs.Recognition.Optimum
import Phrasebook.Proofs.Recognition.Permutation
import Phrasebook.Proofs.Recognition.Priority
import Phrasebook.Proofs.Recognition.Search
import Phrasebook.Proofs.Recognition.SilentRank
import Phrasebook.Proofs.Recognition.StopWords
import Phrasebook.Proofs.Respelling.Automaton
import Phrasebook.Proofs.Respelling.Compile
import Phrasebook.Proofs.Respelling.Decoding
import Phrasebook.Proofs.Store
import Phrasebook.Proofs.Symbol
import Phrasebook.Proofs.Symbol.Lossless
import Phrasebook.Proofs.Template.Derivation
import Phrasebook.Proofs.Template.Legal
import Phrasebook.Proofs.Template.Printing
import Phrasebook.Proofs.Template.Scanning
import Phrasebook.Proofs.Template.Spacing
import Phrasebook.Proofs.Template.WellFormed
import Phrasebook.Proofs.Text.Casing
import Phrasebook.Proofs.Text.Lines
import Phrasebook.Proofs.Text.Words
import Phrasebook.Recognition.Basic
import Phrasebook.Recognition.Fuzzy
import Phrasebook.Recognition.Matching
import Phrasebook.Recognition.Record
import Phrasebook.Recognition.Strict
import Phrasebook.Section
import Phrasebook.Slots
import Phrasebook.Store
import Phrasebook.Symbol
import Phrasebook.Template.Basic
import Phrasebook.Template.Build
import Phrasebook.Template.Derivation
import Phrasebook.Template.Meaning
import Phrasebook.Template.Parser
import Phrasebook.Template.Printer
import Phrasebook.Template.Token
import Phrasebook.Text.Basic
import Phrasebook.Text.CaseTable
import Phrasebook.Text.Casing
import Phrasebook.Text.Table
import Phrasebook.Text.WordSet
import Phrasebook.Yaml.Basic
import Phrasebook.Yaml.Parser
import Phrasebook.Yaml.Scalar
import Phrasebook.Yaml.Token
