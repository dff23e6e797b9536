import FortranJulia.Grammar.Parser
import FortranJulia.Lowering.Generator

/-!
Conversion of a FORTRAN 77 source to a Julia program with its support file.
-/

namespace FortranJulia

set_option autoImplicit false

/-- A finished conversion. -/
structure Conversion where
  program : String
  /-- The text of the support file. -/
  support : String
  /-- The name in the PROGRAM statement, empty if there is none. -/
  name : String
  diagnostics : List Diagnostic
  /-- The number of tokens, the end of the source among them. -/
  tokens : Nat
  /-- The number of nodes made for the syntax tree. -/
  nodes : Nat

inductive ConversionError where
  | syntactic (e : ParseError)
  /-- There are warnings, which the options forbid. -/
  | strict (source : String) (warnings : Nat) (result : Conversion)
  /-- A format repeats blanks beyond all memory. -/
  | overflow

namespace ConversionError

/-- The text of an error; an overflow has none. -/
def message : ConversionError → String
  | .syntactic e => "parse " ++ e.source ++ ": " ++ e.message
  | .strict source n _ =>
    source ++ ": " ++ Decimal.digits n ++ " warnings: translation recorded warnings"
  | .overflow => ""

end ConversionError

/-- The outcome of a conversion whose program is generated. -/
def Conversion.outcome (o : Options) (tokens : List Lexeme) (nodes : Nat) (program : String)
    (g : Generator) : Except ConversionError Conversion := do
  if g.state.overflow then throw .overflow
  let result : Conversion :=
    { program
      support := Intrinsic.supportText
      name := programName tokens
      diagnostics := g.diagnostics
      tokens := tokens.length
      nodes }
  let warnings := Diagnostic.warnings g.diagnostics
  if o.strict && warnings > 0 then throw (.strict o.source warnings result)
  return result

/-- Scans, parses and lowers a source. -/
def convertChecked (source : String) (o : Options) :
    Except Fault (Except ConversionError Conversion) := do
  let tokens := scan source
  match ← parseChecked o.source tokens with
  | .error e => return .error (.syntactic e)
  | .ok (root, nodes) =>
    let (program, g) ← (Generator.start root o).run (some root)
    return Conversion.outcome o tokens nodes program g

/-- Scans, parses and lowers a source; a fault, which no source leads to, counts as an overflow. -/
def convert (source : String) (o : Options) : Except ConversionError Conversion :=
  match convertChecked source o with
  | .ok r => r
  | .error _ => .error .overflow

end FortranJulia
