import Frontend.Automaton.Basic
import Frontend.Automaton.Canonical
import Frontend.Automaton.Determinize
import Frontend.Automaton.Persisted
import Frontend.Automaton.Run
import Frontend.Automaton.Union
import Frontend.Error
import Frontend.Explore
import Frontend.Files.Access
import Frontend.Files.Location
import Frontend.Files.Tree
import Frontend.Fixpoint
import Frontend.Fresh
import Frontend.Generate.Command
import Frontend.Generate.Task
import Frontend.Grammar.Basic
import Frontend.Grammar.Reader
import Frontend.Grammar.Sets
import Frontend.LR.Collection
import Frontend.LR.Item
import Frontend.LR.Parse
import Frontend.LR.Report
import Frontend.LR.Simple
import Frontend.LR.Table
import Frontend.Lexer.Classifier
import Frontend.Lexer.Definitions
import Frontend.Lexer.Lexeme
import Frontend.Main
import Frontend.OrdMap
import Frontend.OrdSet
import Frontend.Order
import Frontend.Proofs.Automaton.Paths
import Frontend.Proofs.Automaton.Renaming
import Frontend.Proofs.Automaton.SetStates
import Frontend.Proofs.Automaton.Subsets
import Frontend.Proofs.Automaton.Unions
import Frontend.Proofs.Exploration
import Frontend.Proofs.FixedPoints
import Frontend.Proofs.FreshNames
import Frontend.Proofs.Grammar.Derivation
import Frontend.Proofs.Grammar.FirstFollow
import Frontend.Proofs.Grammar.Reading
import Frontend.Proofs.LR.Cells
import Frontend.Proofs.LR.Completeness
import Frontend.Proofs.LR.ItemSets
import Frontend.Proofs.LR.Runs
import Frontend.Proofs.LR.Soundness
import Frontend.Proofs.LR.States
import Frontend.Proofs.Lexer.Classification
import Frontend.Proofs.Ordered
import Frontend.Proofs.Outcomes
import Frontend.Proofs.Regex.Classes
import Frontend.Proofs.Regex.Compilation
import Frontend.Proofs.Regex.Desugaring
import Frontend.Proofs.Regex.OpenClasses
import Frontend.Proofs.Regex.Patterns
import Frontend.Proofs.Regex.PositionAutomaton
import Frontend.Proofs.Regex.PositionWords
import Frontend.Proofs.Regex.Readability
import Frontend.Proofs.Regex.ShuntingYard
import Frontend.Proofs.Regex.Trees
import Frontend.Regex.CharClass
import Frontend.Regex.Compile
import Frontend.Regex.Expr
import Frontend.Regex.Operators
import Frontend.Regex.Positions
import Frontend.Regex.Postfix
import Frontend.Regex.Sugar
import Frontend.Regex.Token
import Frontend.Text.Blank
import Frontend.Text.Lines
import Frontend.Text.Quoted
import Frontend.Text.Unprintable
import Frontend.Proofs.LR.Safety
import Frontend.Proofs.Automaton.PersistedNames
import Frontend.Proofs.Automaton.PersistedLines
import Frontend.Proofs.Automaton.Listings
import Frontend.Proofs.Automaton.RoundTrip
import Frontend.Proofs.Automaton.Accessible
import Frontend.Proofs.Regex.Characters
import Frontend.Proofs.Lexer.Persistence
import Frontend.Proofs.Grammar.SententialForms
import Frontend.Proofs.LR.Augmented
import Frontend.Proofs.LR.ViablePrefixes
import Frontend.Proofs.LR.Ambiguity
import Frontend.Proofs.LR.ErrorDetection
import Frontend.Proofs.LR.Halting
import Frontend.Proofs.Grammar.ExactFirst
import Frontend.Proofs.LR.EndMarker
import Frontend.Proofs.Grammar.ExactFollow
import Frontend.Proofs.Regex.Operands
import Frontend.Proofs.Regex.Acceptance
import Frontend.Proofs.LR.GotoGraph
import Frontend.Proofs.Automaton.WellFormedness
import Frontend.Proofs.Automaton.CanonicalForm
import Frontend.Proofs.Automaton.Correspondence
import Frontend.Proofs.Automaton.UnionOrder
import Frontend.Proofs.Regex.Templates
import Frontend.Proofs.Lexer.References
import Frontend.Proofs.LR.Preference
import Frontend.Proofs.LR.Candidates
import Frontend.Proofs.Regex.Annotations
import Frontend.Proofs.Automaton.UnionVerdicts
import Frontend.Proofs.Automaton.Idempotence
import Frontend.Proofs.Automaton.NormalForm
import Frontend.Proofs.Lexer.Expansion
import Frontend.Proofs.Grammar.Interning
import Frontend.Proofs.Grammar.LineLayouts
import Frontend.Proofs.Grammar.Rules
import Frontend.Proofs.Grammar.TextLayouts
import Frontend.Proofs.Searches
import Frontend.Proofs.Automaton.Simulation
import Frontend.Proofs.Regex.Trimness
import Frontend.Proofs.LR.Traces
import Frontend.Proofs.Lexer.Streams
import Frontend.Proofs.Text.CommaSeparated
import Frontend.Proofs.LR.Export
import Frontend.Proofs.Regex.WrittenForms
import Frontend.Proofs.Regex.Grouping
import Frontend.Proofs.Automaton.PersistedFormat
import Frontend.Proofs.LR.Closures
import Frontend.Proofs.Regex.PostfixNodes
import Frontend.Proofs.Regex.Rendering
