import ScopeLint.Arena
import ScopeLint.Binding
import ScopeLint.Builtins
import ScopeLint.Check
import ScopeLint.CommandLine
import ScopeLint.Diagnostic
import ScopeLint.Diagnostic.Json
import ScopeLint.Directive
import ScopeLint.Files
import ScopeLint.Grammar
import ScopeLint.Grammar.Derivation
import ScopeLint.Grammar.Meaning
import ScopeLint.Grammar.Predict
import ScopeLint.IdSet
import ScopeLint.LineScan
import ScopeLint.Lint
import ScopeLint.Main
import ScopeLint.NameTable
import ScopeLint.Node
import ScopeLint.Note
import ScopeLint.Options
import ScopeLint.Parse
import ScopeLint.Resolve
import ScopeLint.Scope
import ScopeLint.Span
import ScopeLint.SyntaxError
import ScopeLint.Text.Blank
import ScopeLint.Text.Digit
import ScopeLint.Text.Lines
import ScopeLint.Text.Printable
import ScopeLint.Text.Quoted
import ScopeLint.Text.Utf8
import ScopeLint.Token
import ScopeLint.Token.Layout
import ScopeLint.Token.Lexeme
import ScopeLint.Token.Lexer
import ScopeLint.Token.Separator
import ScopeLint.Token.Stream
import ScopeLint.Trace
import ScopeLint.Walk
import ScopeLint.Proofs.Closing
import ScopeLint.Proofs.Confluence
import ScopeLint.Proofs.Actions
import ScopeLint.Proofs.Nesting
import ScopeLint.Proofs.Order
import ScopeLint.Proofs.Balance
import ScopeLint.Proofs.Discipline
import ScopeLint.Proofs.Resolution
import ScopeLint.Proofs.Reports
import ScopeLint.Proofs.Lexical
import ScopeLint.Proofs.Brackets
import ScopeLint.Proofs.WellFormed
import ScopeLint.Proofs.Expressions
import ScopeLint.Proofs.Built
import ScopeLint.Proofs.Boundary
import ScopeLint.Proofs.Ebnf
import ScopeLint.Proofs.Reading
import ScopeLint.Proofs.Factoring
import ScopeLint.Proofs.Acceptance
import ScopeLint.Proofs.Chronicle
import ScopeLint.Proofs.History
import ScopeLint.Proofs.Places
import ScopeLint.Proofs.Pointing
import ScopeLint.Proofs.Occurrences
import ScopeLint.Proofs.Locating
import ScopeLint.Proofs.Analysis
import ScopeLint.Proofs.Sorting
import ScopeLint.Proofs.Lines
import ScopeLint.Proofs.Suppression
import ScopeLint.Proofs.Blocks
import ScopeLint.Proofs.Flow
import ScopeLint.Proofs.OrderedMeaning
import ScopeLint.Proofs.SourceOrder
import ScopeLint.Proofs.Hosting
import ScopeLint.Proofs.Unshared
import ScopeLint.Proofs.Enclosing
import ScopeLint.Proofs.Replay
import ScopeLint.Proofs.Linewise
import ScopeLint.Proofs.Moved
import ScopeLint.Proofs.Siblings
import ScopeLint.Proofs.Insertion
import ScopeLint.Proofs.Displacement
import ScopeLint.Proofs.Transport
import ScopeLint.Proofs.CommentLines
import ScopeLint.Proofs.Semicolons
import ScopeLint.Proofs.ExitStatus
import ScopeLint.Proofs.TreeOrder
import ScopeLint.Proofs.Imports
import ScopeLint.Proofs.AtomMeaning
import ScopeLint.Proofs.Identifiers
import ScopeLint.Proofs.Shapes
import ScopeLint.Proofs.CodePart
import ScopeLint.Proofs.LineTokens
import ScopeLint.Proofs.CodeEnds
import ScopeLint.Proofs.TrailingSemicolons
import ScopeLint.Proofs.DirectiveWords
import ScopeLint.Proofs.Augmented
import ScopeLint.Proofs.Rebinding
import ScopeLint.Proofs.TreeRemarks
import ScopeLint.Proofs.Constructs
import ScopeLint.Proofs.WithItems
import ScopeLint.Proofs.Filtering
import ScopeLint.Proofs.Internals
import ScopeLint.Proofs.Viability
import ScopeLint.Proofs.Growth
import ScopeLint.Proofs.Descent
import ScopeLint.Proofs.Supplies
import ScopeLint.Proofs.Repeats
