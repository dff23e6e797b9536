import FortranJulia.CommandLine.Command
import FortranJulia.CommandLine.Listing
import FortranJulia.Files.Artifact
import FortranJulia.Report.Write
import FortranJulia.Settings.Load
import FortranJulia.Text.Columns

/-!
Running of a command line: what the commands print and the exit code.
-/

namespace FortranJulia.CommandLine

set_option autoImplicit false

variable {m : Type → Type} [Monad m] [Host m]

structure Outcome where
  code : Nat := 0
  stdout : String := ""
  stderr : String := ""
  /-- A format repeats blanks beyond all memory. -/
  overflow : Bool := false
  deriving DecidableEq, Repr

namespace Outcome

/-- A failure with its message, after what was printed before. -/
def failed (message : String) (before : String) : Outcome :=
  { code := 1, stderr := before ++ "error: " ++ message ++ "\n" }

/-- A command line that no command can take. -/
def misused (message : String) : Outcome :=
  { failed message "" with code := 64 }

end Outcome

/-! ## Conversion -/

/-- The diagnostics of a source, one after another, each with its place laid out as a block. -/
def diagnosticLines (source : String) (ds : List Diagnostic) : String :=
  String.join (ds.map fun d =>
    Text.block (source ++ ":" ++ Decimal.ofInt d.line ++ ":" ++ Decimal.ofInt d.col ++ ":") ++ " " ++
      d.severity.text ++ " " ++ d.rule ++ (if d.message == "" then "" else " " ++ d.message) ++ "\n")

/-- What was written, and the numbers of a conversion. -/
def summaryText (r : Conversion) (outputs : List String) : String :=
  let warnings := Diagnostic.warnings r.diagnostics
  String.join (outputs.map fun p => "wrote " ++ p ++ "\n") ++
    Decimal.digits r.tokens ++ " tokens, " ++ Decimal.digits r.nodes ++ " nodes, " ++
    Decimal.digits warnings ++ " warnings, " ++
    Decimal.digits (r.diagnostics.length - warnings) ++ " notes\n"

/-- The settings of a run: those of the file, if one is given, and the flags. -/
def settingsOf (v : Values) : m (Except SettingsError Settings) := do
  let found ← if v.config == "" then pure (.ok .default) else Settings.load (m := m) v.config
  return found.map fun s =>
    { s with
      outputDirectory := if v.out == "" then s.outputDirectory else v.out
      reportPath := if v.report == "" then s.reportPath else v.report
      strict := s.strict || v.strict }

/-- Writes the files of a conversion and the report, if one is wanted. -/
def deliver (s : Settings) (source : String) (r : Conversion) : m Outcome := do
  let notes := diagnosticLines source r.diagnostics
  let written ← r.write (m := m) source ⟨s.outputDirectory, s.extension, s.supportFile⟩
  match written.error with
  | some e => return .failed e.message notes
  | none =>
    let report ←
      if s.reportPath == "" then pure (.ok ())
      else Report.write (m := m) s.reportPath source r written.paths
    match report with
    | .error e => return .failed ("write report: " ++ e.message) notes
    | .ok () => return { stdout := summaryText r written.paths, stderr := notes }

def convertSource (s : Settings) (path source : String) : m Outcome := do
  let options : Options :=
    { source := path, indent := s.indent, support := s.supportFile, strict := s.strict }
  match convert source options with
  | .ok r => deliver s path r
  | .error (.strict name n r) =>
    if s.reportPath != "" then
      let _ ← Report.write (m := m) s.reportPath path r []
    return .failed (ConversionError.strict name n r).message (diagnosticLines path r.diagnostics)
  | .error .overflow => return { code := 2, overflow := true }
  | .error e => return .failed e.message ""

def convertFile (v : Values) (path : String) : m Outcome := do
  match ← settingsOf (m := m) v with
  | .error e => return .failed e.message ""
  | .ok s =>
    match ← Host.read (m := m) path with
    | .error e => return .failed e.message ""
    | .ok source => convertSource s path source

/-! ## Listings -/

/-- Does something with the tree of a source. -/
def withTree (path source : String) (f : Node → Outcome) : Outcome :=
  match parseSource path source with
  | .ok (n, _) => f n
  | .error e => .failed e.message ""

def symbolOutcome (v : Values) (n : Node) : Outcome :=
  let c := Collection.ofTree false (some n) .empty
  let faults :=
    if c.errors.isEmpty then ""
    else "symbols: " ++
      Julia.Expr.separated "\n" (c.errors.map DeclarationError.message) ++ "\n"
  { stdout := symbolList c.table v.filter v.type, stderr := faults }

/-- What a listing command prints for a source. -/
def listing (c : Command) (v : Values) (path source : String) : Outcome :=
  match c with
  | .tokens =>
    let lexemes := scan source
    { stdout := if v.dump then tokenDump lexemes else tokenList lexemes }
  | .ast => withTree path source fun n => { stdout := n.outline 0 }
  | _ => withTree path source (symbolOutcome v)

def listFile (c : Command) (v : Values) (args : List String) : m Outcome := do
  match args with
  | [path] =>
    match ← Host.read (m := m) path with
    | .error e => return .failed e.message ""
    | .ok source => return listing c v path source
  | _ =>
    return .failed ("accepts 1 arg(s), received " ++ Decimal.digits args.length) ""

/-! ## Commands -/

def versionText : String := "fort2jul devel\n"

def runCommand (c : Command) (v : Values) (args : List String) : m Outcome := do
  if v.help then return { stdout := c.helpText }
  match c, args with
  | .convert, [] => return { stdout := c.helpText }
  | .convert, [path] => convertFile v path
  | .convert, _ =>
    return .misused ("expected one input file, got " ++ Decimal.digits args.length)
  | .version, [] => return { stdout := versionText }
  | .version, a :: _ =>
    return .failed ("unknown command " ++ Text.quoted a ++ " for \"fort2jul version\"") ""
  | _, _ => listFile c v args

/-- Runs a command line. -/
def run (words : List String) : m Outcome := do
  let (c, rest) := Command.select words
  match parseFlags c.flags rest with
  | .error e => return .failed e.message ""
  | .ok (v, args) => runCommand c v args

end FortranJulia.CommandLine
