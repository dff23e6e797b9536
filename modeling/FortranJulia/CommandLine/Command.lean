import FortranJulia.CommandLine.Flag

/-!
The commands of the program, how a command line names one, and their help.
-/

namespace FortranJulia.CommandLine

set_option autoImplicit false

inductive Command where
  /-- The command without a name. -/
  | convert
  | ast
  | symbols
  | tokens
  | version
  deriving DecidableEq, Repr

namespace Command

def ofName? : String → Option Command
  | "ast" => some .ast
  | "symbols" => some .symbols
  | "tokens" => some .tokens
  | "version" => some .version
  | _ => none

def name : Command → String
  | .convert => "fort2jul"
  | .ast => "ast"
  | .symbols => "symbols"
  | .tokens => "tokens"
  | .version => "version"

/-- The flags that belong to a command alone. -/
def ownFlags : Command → List Flag
  | .convert => [.config, .help, .out, .report, .strict, .verbose]
  | .ast | .version => [.help]
  | .symbols => [.filter, .help, .type]
  | .tokens => [.dump, .help]

/-- The flags of all commands. -/
def sharedFlags : List Flag :=
  [.config, .verbose]

def flags (c : Command) : List Flag :=
  Flag.all.filter fun f => c.ownFlags.contains f || sharedFlags.contains f

/-! ## Which command -/

/-- Does a word take the next one as its value? A flag that is not known seems to, as does the one
for help. -/
def takesNext (c : Command) (word : List Char) : Bool :=
  let switches := c.flags.filter fun f => f.isSwitch && f != .help
  if word.contains '=' then false
  else if word.take 2 == ['-', '-'] then !switches.any (·.long.toList == word.drop 2)
  else
    match word with
    | ['-', l] => l.toNat < 0x80 && !switches.any (·.short? == some l)
    | _ => false

/-- The first word that is neither a flag nor the value of one. A flag whose value is the last word
ends the search. -/
def firstArgument (c : Command) : List String → Option String
  | [] => none
  | w :: ws =>
    let word := w.toList
    if w == "--" then none
    else if c.takesNext word then
      match ws with
      | _ :: rest => if rest.isEmpty then none else firstArgument c rest
      | [] => none
    else if w != "" && word.head? != some '-' then some w
    else firstArgument c ws

/-- The words without the first argument that is a given one. -/
def dropArgument (c : Command) (name : String) : List String → List String
  | [] => []
  | w :: ws =>
    let word := w.toList
    if w == "--" then w :: ws
    else if c.takesNext word then
      match ws with
      | value :: rest => w :: value :: dropArgument c name rest
      | [] => [w]
    else if w == name then ws
    else w :: dropArgument c name ws

/-- The command that the first argument names, and the other words. -/
def select (words : List String) : Command × List String :=
  match (convert.firstArgument words).bind fun w => (ofName? w).map (w, ·) with
  | some (w, c) => (c, convert.dropArgument w words)
  | none => (.convert, words)

/-! ## Help -/

def flagUsage (c : Command) : Flag → String
  | .config => "config file (.toml, .yaml or .yml)"
  | .dump => "dump lexemes with all fields"
  | .filter => "filter symbols by name (case-insensitive substring)"
  | .help => "help for " ++ c.name
  | .out => "output directory (default: directory of the input)"
  | .report => "write a YAML report of the run to this path"
  | .strict => "fail when any warning is recorded"
  | .type => "filter by type (INTEGER, REAL, CHARACTER, etc.)"
  | .verbose => "debug logging"

/-- A flag as a list of flags names it. -/
def flagHead (f : Flag) : String :=
  (match f.short? with
   | some c => "  -" ++ String.singleton c ++ ", --"
   | none => "      --") ++ f.long ++ (if f.isSwitch then "" else " string")

/-- A list of flags with what they do, in columns. -/
def flagList (c : Command) (fs : List Flag) : String :=
  let width := fs.foldl (fun n f => max n (flagHead f).length) 0
  String.join (fs.map fun f =>
    let head := flagHead f
    let gap := String.ofList (List.replicate (width - head.length + 3) ' ')
    head ++ gap ++ c.flagUsage f ++ "\n")

/-- What a command does. -/
def summary : Command → String
  | .convert =>
    "fort2jul translates a FORTRAN 77 program to a Julia program and writes the\n" ++
    "macros.jl support file the program includes.\n\n" ++
    "Constructs without a Julia equivalent are skipped and reported as diagnostics."
  | .ast => "Print the syntax tree of a source file"
  | .symbols => "Print the symbols declared by each program unit"
  | .tokens => "Print the tokens of a source file"
  | .version => "Print the version"

/-- The commands with what they do, in columns. -/
def commandList : String :=
  String.join <|
    [("ast", summary .ast),
     ("completion", "Generate the autocompletion script for the specified shell"),
     ("help", "Help about any command"),
     ("symbols", summary .symbols),
     ("tokens", summary .tokens),
     ("version", summary .version)].map fun (name, text) =>
      "  " ++ name ++ String.ofList (List.replicate (12 - name.length) ' ') ++ text ++ "\n"

def usageLines : Command → String
  | .convert =>
    "  fort2jul [flags] file.f\n  fort2jul [command]\n\nAvailable Commands:\n" ++ commandList
  | .version => "  fort2jul version [flags]\n"
  | c => "  fort2jul " ++ c.name ++ " file.f [flags]\n"

def helpText (c : Command) : String :=
  c.summary ++ "\n\nUsage:\n" ++ c.usageLines ++ "\nFlags:\n" ++ c.flagList c.ownFlags ++
    (if c == .convert then
      "\nUse \"fort2jul [command] --help\" for more information about a command.\n"
     else "\nGlobal Flags:\n" ++ c.flagList sharedFlags)

end Command

end FortranJulia.CommandLine
