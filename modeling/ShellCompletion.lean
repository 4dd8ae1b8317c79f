import ShellCompletion.Automaton.Basic
import ShellCompletion.Automaton.Construction
import ShellCompletion.Automaton.Dot
import ShellCompletion.Automaton.Interner
import ShellCompletion.Automaton.Minimization
import ShellCompletion.Automaton.Query
import ShellCompletion.Automaton.Range
import ShellCompletion.CommandLine
import ShellCompletion.Compiler
import ShellCompletion.Data.NatSet
import ShellCompletion.Data.OrderedMap
import ShellCompletion.Failure
import ShellCompletion.Grammar.Adjacency
import ShellCompletion.Grammar.Compilation
import ShellCompletion.Grammar.Definition
import ShellCompletion.Grammar.Dependency
import ShellCompletion.Grammar.Description
import ShellCompletion.Grammar.Diagram
import ShellCompletion.Grammar.Expr
import ShellCompletion.Grammar.Level
import ShellCompletion.Grammar.Lexeme
import ShellCompletion.Grammar.Parser
import ShellCompletion.Grammar.Resolution
import ShellCompletion.Grammar.Valid
import ShellCompletion.Help.Entry
import ShellCompletion.Help.Line
import ShellCompletion.Help.Outline
import ShellCompletion.Input
import ShellCompletion.Main
import ShellCompletion.Matcher
import ShellCompletion.Pattern.Basic
import ShellCompletion.Pattern.Checks
import ShellCompletion.Pattern.Node
import ShellCompletion.Pattern.Positions
import ShellCompletion.Proofs.AmbiguousInputs
import ShellCompletion.Proofs.Blocks
import ShellCompletion.Proofs.Circles
import ShellCompletion.Proofs.ClashingVariants
import ShellCompletion.Proofs.Collections
import ShellCompletion.Proofs.Conflicts
import ShellCompletion.Proofs.ConfusedStates
import ShellCompletion.Proofs.Contacts
import ShellCompletion.Proofs.Continuations
import ShellCompletion.Proofs.CopiedTexts
import ShellCompletion.Proofs.DefinitionOrder
import ShellCompletion.Proofs.Definitions
import ShellCompletion.Proofs.Descent
import ShellCompletion.Proofs.DescribedVariants
import ShellCompletion.Proofs.Descriptions
import ShellCompletion.Proofs.Determinism
import ShellCompletion.Proofs.EndedQuotes
import ShellCompletion.Proofs.ErrorPlaces
import ShellCompletion.Proofs.ExpressionWords
import ShellCompletion.Proofs.Expressions
import ShellCompletion.Proofs.FallbackLevels
import ShellCompletion.Proofs.FishSources
import ShellCompletion.Proofs.FishTables
import ShellCompletion.Proofs.GenericCommands
import ShellCompletion.Proofs.HashedAutomata
import ShellCompletion.Proofs.HelpEntries
import ShellCompletion.Proofs.Idempotence
import ShellCompletion.Proofs.Interning
import ShellCompletion.Proofs.LiteralTables
import ShellCompletion.Proofs.LocalWords
import ShellCompletion.Proofs.Merging
import ShellCompletion.Proofs.Minimality
import ShellCompletion.Proofs.Minimization
import ShellCompletion.Proofs.NamedCalls
import ShellCompletion.Proofs.Naming
import ShellCompletion.Proofs.Numbering
import ShellCompletion.Proofs.Outlines
import ShellCompletion.Proofs.ParsedExpressions
import ShellCompletion.Proofs.Partitions
import ShellCompletion.Proofs.PatternAutomaton
import ShellCompletion.Proofs.PatternWords
import ShellCompletion.Proofs.PlainDefinitions
import ShellCompletion.Proofs.PositionSets
import ShellCompletion.Proofs.Printing
import ShellCompletion.Proofs.Progress
import ShellCompletion.Proofs.QuotedTexts
import ShellCompletion.Proofs.RangeSearch
import ShellCompletion.Proofs.Reading
import ShellCompletion.Proofs.Rejections
import ShellCompletion.Proofs.RepeatedUnits
import ShellCompletion.Proofs.ReplacedNeighbours
import ShellCompletion.Proofs.ResolutionOrder
import ShellCompletion.Proofs.Resolutions
import ShellCompletion.Proofs.Results
import ShellCompletion.Proofs.RoundTrip
import ShellCompletion.Proofs.Rounds
import ShellCompletion.Proofs.RowOrder
import ShellCompletion.Proofs.Runs
import ShellCompletion.Proofs.ScriptTables
import ShellCompletion.Proofs.Scripts
import ShellCompletion.Proofs.SearchOrder
import ShellCompletion.Proofs.SettledBlocks
import ShellCompletion.Proofs.ShellWords
import ShellCompletion.Proofs.Sources
import ShellCompletion.Proofs.SpecializedNames
import ShellCompletion.Proofs.StringConstants
import ShellCompletion.Proofs.Substitution
import ShellCompletion.Proofs.SubwordAmbiguity
import ShellCompletion.Proofs.SubwordBodies
import ShellCompletion.Proofs.TargetRanges
import ShellCompletion.Proofs.TextLines
import ShellCompletion.Proofs.TextMatching
import ShellCompletion.Proofs.TouchingLiterals
import ShellCompletion.Proofs.TrailingDots
import ShellCompletion.Proofs.TrimStates
import ShellCompletion.Proofs.Unfolding
import ShellCompletion.Proofs.Validation
import ShellCompletion.Proofs.Variants
import ShellCompletion.Proofs.Walks
import ShellCompletion.Proofs.Warnings
import ShellCompletion.Proofs.WholeWords
import ShellCompletion.Script
import ShellCompletion.Script.Bash
import ShellCompletion.Script.Fish
import ShellCompletion.Script.Pwsh
import ShellCompletion.Script.Quote
import ShellCompletion.Script.Table
import ShellCompletion.Script.Zsh
import ShellCompletion.Shell
import ShellCompletion.Source.Cursor
import ShellCompletion.Source.Span
import ShellCompletion.Text.Lines
import ShellCompletion.Text.Readings
import ShellCompletion.Text.Uppercase
import ShellCompletion.Text.Whitespace
