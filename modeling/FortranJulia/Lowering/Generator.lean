import FortranJulia.Intrinsic.Support
import FortranJulia.Lowering.Program

/-!
The generator of a Julia program from a syntax tree. A generator may be run more than once: the
symbols, spellings and diagnostics of earlier runs are kept.
-/

namespace FortranJulia

set_option autoImplicit false

open Julia (Line)

/-- How a program is written. -/
structure Options where
  /-- The name of the source, which the program mentions unless it is empty. -/
  source : String := ""
  /-- What is written once per level; a tab if empty. -/
  indent : String := ""
  /-- The support file that the program includes; the usual name if empty. -/
  support : String := ""
  /-- Are warnings failures? -/
  strict : Bool := false

namespace Options

def indentation (o : Options) : String :=
  if o.indent == "" then "\t" else o.indent

def supportFile (o : Options) : String :=
  if o.support == "" then Intrinsic.supportFile else o.support

/-- What stands before the code. -/
def header (o : Options) : String :=
  "include(" ++ Text.juliaString o.supportFile ++ ")\n\n" ++
    (if o.source == "" then ""
     else "# Original file located at: " ++ o.source ++ "\n\n") ++
    "using Printf\n\n"

end Options

structure Generator where
  options : Options
  state : LowerState

namespace Generator

/-- A generator that knows the program units of a tree, so that calls of routines further down are
resolved. -/
def start (root : Node) (options : Options) : Generator :=
  let c := Collection.ofTree true (some root) .empty
  let found : List Diagnostic :=
    match c.errors with
    | [] => []
    | es =>
      [⟨.warning, Diagnostic.programUnit, root.place.1, root.place.2,
        Julia.Expr.separated "\n" (es.map DeclarationError.message)⟩]
  { options, state := { collection := { table := c.table }, diagnostics := found } }

/-- Lowers a tree; an absent one has no parts. The diagnostics are put in order. -/
def run (g : Generator) (root : Option Node) : Except Fault (String × Generator) := do
  let parts := (root.map (·.children)).getD []
  let (_, s) ← (parts.forM Lower.sourcePart).run { g.state with lines := [] }
  let s := { s with diagnostics := Diagnostic.sorted s.diagnostics }
  return (g.options.header ++ Line.render g.options.indentation s.lines.reverse,
    { g with state := s })

def diagnostics (g : Generator) : List Diagnostic :=
  g.state.diagnostics

end Generator

end FortranJulia
