import FortranJulia.CommandLine.Command
import FortranJulia.CommandLine.Flag
import FortranJulia.CommandLine.Listing
import FortranJulia.CommandLine.Run
import FortranJulia.Conversion
import FortranJulia.Decimal.Binary64
import FortranJulia.Decimal.Reading
import FortranJulia.Decimal.Shortest
import FortranJulia.Diagnostic
import FortranJulia.Fault
import FortranJulia.Files.Artifact
import FortranJulia.Files.Disk
import FortranJulia.Files.Host
import FortranJulia.Files.Path
import FortranJulia.Format.Item
import FortranJulia.Format.Printf
import FortranJulia.Format.Read
import FortranJulia.Format.Token
import FortranJulia.Golden.Case
import FortranJulia.Golden.Document
import FortranJulia.Grammar.Declaration
import FortranJulia.Grammar.Expression
import FortranJulia.Grammar.InputOutput
import FortranJulia.Grammar.Match
import FortranJulia.Grammar.Parser
import FortranJulia.Grammar.Pattern
import FortranJulia.Grammar.Statement
import FortranJulia.Intrinsic.Support
import FortranJulia.Intrinsic.Table
import FortranJulia.Julia.Code
import FortranJulia.Julia.Expr
import FortranJulia.Lowering.Declaration
import FortranJulia.Lowering.Expression
import FortranJulia.Lowering.Generator
import FortranJulia.Lowering.InputOutput
import FortranJulia.Lowering.Program
import FortranJulia.Lowering.State
import FortranJulia.Lowering.Statement
import FortranJulia.Lowering.Typing
import FortranJulia.Main
import FortranJulia.Proofs.Arena.Attempts
import FortranJulia.Proofs.Arena.Contents
import FortranJulia.Proofs.BlankLines.Conversions
import FortranJulia.Proofs.BlankLines.Matching
import FortranJulia.Proofs.BlankLines.Parsing
import FortranJulia.Proofs.Conversion.Totality
import FortranJulia.Proofs.Emission.Balance
import FortranJulia.Proofs.Emission.BlockData
import FortranJulia.Proofs.Emission.Comments
import FortranJulia.Proofs.Emission.Ensures
import FortranJulia.Proofs.Emission.Lines
import FortranJulia.Proofs.Emission.Locals
import FortranJulia.Proofs.Emission.Material
import FortranJulia.Proofs.Emission.Nesting
import FortranJulia.Proofs.Emission.Parts
import FortranJulia.Proofs.Emission.Plain
import FortranJulia.Proofs.Emission.References
import FortranJulia.Proofs.Emission.Resolution
import FortranJulia.Proofs.Emission.Returns
import FortranJulia.Proofs.Emission.Statements
import FortranJulia.Proofs.Emission.Succession
import FortranJulia.Proofs.Emission.Texts
import FortranJulia.Proofs.Emission.Tidy
import FortranJulia.Proofs.Emission.Transfers
import FortranJulia.Proofs.Files.Writing
import FortranJulia.Proofs.Format.Conversions
import FortranJulia.Proofs.Format.Reading
import FortranJulia.Proofs.Format.Rules
import FortranJulia.Proofs.Format.Verbatim
import FortranJulia.Proofs.Format.Writing
import FortranJulia.Proofs.LetterCase.Conversions
import FortranJulia.Proofs.LetterCase.Formats
import FortranJulia.Proofs.LetterCase.Parsing
import FortranJulia.Proofs.LetterCase.Scanning
import FortranJulia.Proofs.LetterCase.Symbols
import FortranJulia.Proofs.LetterCase.Texts
import FortranJulia.Proofs.LetterCase.Trees
import FortranJulia.Proofs.Likeness.Code
import FortranJulia.Proofs.Likeness.Collecting
import FortranJulia.Proofs.Likeness.Conversions
import FortranJulia.Proofs.Likeness.Declarations
import FortranJulia.Proofs.Likeness.Expressions
import FortranJulia.Proofs.Likeness.Generation
import FortranJulia.Proofs.Likeness.Names
import FortranJulia.Proofs.Likeness.Programs
import FortranJulia.Proofs.Likeness.Statements
import FortranJulia.Proofs.Likeness.States
import FortranJulia.Proofs.Likeness.Transfers
import FortranJulia.Proofs.Likeness.Trees
import FortranJulia.Proofs.Lowering.Bindings
import FortranJulia.Proofs.Lowering.Blocks
import FortranJulia.Proofs.Lowering.Calls
import FortranJulia.Proofs.Lowering.Conduct
import FortranJulia.Proofs.Lowering.Counts
import FortranJulia.Proofs.Lowering.Declarations
import FortranJulia.Proofs.Lowering.Entries
import FortranJulia.Proofs.Lowering.ImpliedLoops
import FortranJulia.Proofs.Lowering.InitialSets
import FortranJulia.Proofs.Lowering.InitialValues
import FortranJulia.Proofs.Lowering.Initializers
import FortranJulia.Proofs.Lowering.Marks
import FortranJulia.Proofs.Lowering.Names
import FortranJulia.Proofs.Lowering.Openings
import FortranJulia.Proofs.Lowering.Parts
import FortranJulia.Proofs.Lowering.Routines
import FortranJulia.Proofs.Lowering.Silence
import FortranJulia.Proofs.Lowering.Specifications
import FortranJulia.Proofs.Lowering.Statements
import FortranJulia.Proofs.Lowering.Transfers
import FortranJulia.Proofs.Lowering.Units
import FortranJulia.Proofs.Lowering.Visits
import FortranJulia.Proofs.Meaning.Equivalences
import FortranJulia.Proofs.Meaning.Fortran
import FortranJulia.Proofs.Meaning.Julia
import FortranJulia.Proofs.Meaning.Preservation
import FortranJulia.Proofs.Meaning.Quantity
import FortranJulia.Proofs.Meaning.Reading
import FortranJulia.Proofs.Meaning.Translation
import FortranJulia.Proofs.Meaning.Writing
import FortranJulia.Proofs.Naming.Collecting
import FortranJulia.Proofs.Naming.Hygiene
import FortranJulia.Proofs.Naming.Programs
import FortranJulia.Proofs.Naming.Repetition
import FortranJulia.Proofs.Naming.Spelling
import FortranJulia.Proofs.Naming.Statements
import FortranJulia.Proofs.Naming.Uses
import FortranJulia.Proofs.Parsing.Acceptance
import FortranJulia.Proofs.Parsing.Backtracking
import FortranJulia.Proofs.Parsing.Committed
import FortranJulia.Proofs.Parsing.Course
import FortranJulia.Proofs.Parsing.Declarators
import FortranJulia.Proofs.Parsing.Derivation
import FortranJulia.Proofs.Parsing.Ends
import FortranJulia.Proofs.Parsing.Expressions
import FortranJulia.Proofs.Parsing.Formulas
import FortranJulia.Proofs.Parsing.Furthest
import FortranJulia.Proofs.Parsing.Growth
import FortranJulia.Proofs.Parsing.Neighbours
import FortranJulia.Proofs.Parsing.Numbering
import FortranJulia.Proofs.Parsing.Precedence
import FortranJulia.Proofs.Parsing.Prediction
import FortranJulia.Proofs.Parsing.Productions
import FortranJulia.Proofs.Parsing.Programs
import FortranJulia.Proofs.Parsing.Progress
import FortranJulia.Proofs.Parsing.Reconstruction
import FortranJulia.Proofs.Parsing.Searches
import FortranJulia.Proofs.Parsing.Shapes
import FortranJulia.Proofs.Parsing.Simulation
import FortranJulia.Proofs.Parsing.TreeMatch
import FortranJulia.Proofs.Parsing.Unfolding
import FortranJulia.Proofs.Parsing.UnitNames
import FortranJulia.Proofs.Parsing.Words
import FortranJulia.Proofs.Parsing.Yield
import FortranJulia.Proofs.Scanning.Constants
import FortranJulia.Proofs.Scanning.Lexemes
import FortranJulia.Proofs.Scanning.Lines
import FortranJulia.Proofs.Scanning.Operands
import FortranJulia.Proofs.Scanning.Rereading
import FortranJulia.Proofs.Scanning.Spans
import FortranJulia.Proofs.Scanning.Specifiers
import FortranJulia.Proofs.Scanning.Spelling
import FortranJulia.Proofs.Symbols.Agreement
import FortranJulia.Proofs.Symbols.Folding
import FortranJulia.Proofs.Symbols.ImplicitTypes
import FortranJulia.Proofs.Symbols.Operations
import FortranJulia.Proofs.Symbols.Registration
import FortranJulia.Proofs.Symbols.Reordering
import FortranJulia.Proofs.Symbols.Traversal
import FortranJulia.Report.Plain
import FortranJulia.Report.Scalar
import FortranJulia.Report.Write
import FortranJulia.Session
import FortranJulia.Settings.Level
import FortranJulia.Settings.Load
import FortranJulia.Settings.Toml
import FortranJulia.Settings.Value
import FortranJulia.Settings.Yaml
import FortranJulia.Symbol.Collect
import FortranJulia.Symbol.Implicit
import FortranJulia.Symbol.Scope
import FortranJulia.Symbol.Table
import FortranJulia.Text.Blank
import FortranJulia.Text.Case
import FortranJulia.Text.Columns
import FortranJulia.Text.Expansion
import FortranJulia.Text.Grapheme
import FortranJulia.Text.Printing
import FortranJulia.Text.Quoted
import FortranJulia.Token.Kind
import FortranJulia.Token.Lexeme
import FortranJulia.Token.Scan
import FortranJulia.Tree.Arena
import FortranJulia.Tree.Expression
import FortranJulia.Tree.Label
import FortranJulia.Tree.Node
import FortranJulia.Tree.Text
