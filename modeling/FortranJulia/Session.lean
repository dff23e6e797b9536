import FortranJulia.Conversion

/-!
Work on sources step by step: one scanner, one parser and one generator are used for one source
after another, and each step may be repeated on what the last one left.
-/

namespace FortranJulia

set_option autoImplicit false

structure Session where
  /-- All lexemes the scanner has delivered for its source, if it has one. -/
  scanned : Option (List Lexeme) := none
  /-- The lexemes that are parsed next. -/
  tokens : List Lexeme := []
  parser : Option Parser := none
  /-- The tree of the last parse, if that succeeded. -/
  tree : Option Node := none
  generator : Option Generator := none

inductive SessionError where
  /-- The step needs something that no earlier step has made. -/
  | notReady
  /-- The lexemes do not end with the end of the source. -/
  | unterminated
  | noParser
  | emptyTree
  | syntactic (e : ParseError)
  /-- A format repeats blanks beyond all memory. -/
  | overflow

namespace SessionError

/-- The text of an error. Steps that come too early have none. -/
def message : SessionError → String
  | .notReady | .overflow => ""
  | .unterminated => Parser.resetMessage
  | .noParser => "parser not initialized"
  | .emptyTree => "empty tree"
  | .syntactic e => e.message

end SessionError

namespace Session

/-- The name of the main program of the source at hand. -/
def programName (s : Session) : String :=
  FortranJulia.programName (s.scanned.getD [])

/-- Takes over what the scanner has delivered. The scanner puts its lexemes in the place of those
before, and a parser that was started on these finds the new ones there. -/
def deliver (s : Session) (tokens : List Lexeme) : Session :=
  { s with scanned := some tokens, tokens, parser := s.parser.map (·.overwrite tokens) }

def scan (s : Session) (source : String) : Session :=
  s.deliver (FortranJulia.scan source)

/-- Scans on at the end of the source, where only its end is found again. -/
def rescan (s : Session) : Except SessionError Session :=
  match s.scanned with
  | none => .error .notReady
  | some lxs => .ok (s.deliver (lxs ++ lxs.getLast?.toList))

/-- Drops the last lexeme. -/
def chop (s : Session) : Except SessionError Session :=
  match s.tokens with
  | [] => .error .notReady
  | lxs => .ok { s with tokens := lxs.dropLast }

/-- Parses on with a parser. A failure leaves no tree. -/
def runParser (s : Session) (p : Parser) : Except SessionError Node × Session :=
  match p.parse with
  | .ok (.ok n, q) => (.ok n, { s with parser := some q, tree := some n })
  | .ok (.error e, q) => (.error (.syntactic e), { s with parser := some q, tree := none })
  | .error _ => (.error .overflow, s)

def parse (s : Session) (source : String) : Except SessionError Node × Session :=
  match Parser.start? source s.tokens with
  | none => (.error .unterminated, s)
  | some p => s.runParser p

/-- Parses on where the last parse ended. -/
def reparse (s : Session) : Except SessionError Node × Session :=
  match s.parser with
  | none => (.error .noParser, { s with tree := none })
  | some p => s.runParser p

/-- The number of nodes that the parser holds. -/
def nodes (s : Session) : Nat :=
  (s.parser.map (·.count)).getD 0

/-- Runs a generator on the tree that the parser holds. -/
def runGenerator (s : Session) (g : Generator) : Except SessionError String × Session :=
  match g.run (s.parser.bind (·.root)) with
  | .ok (text, g) =>
    let s := { s with generator := some g }
    (if g.state.overflow then .error .overflow else .ok text, s)
  | .error _ => (.error .overflow, s)

def generate (s : Session) (options : Options) : Except SessionError String × Session :=
  match s.tree with
  | none => (.error .emptyTree, s)
  | some n => s.runGenerator (.start n options)

/-- Generates once more; symbols, spellings and diagnostics are kept. -/
def regenerate (s : Session) : Except SessionError String × Session :=
  match s.generator with
  | none => (.error .notReady, s)
  | some g => s.runGenerator g

def diagnostics (s : Session) : List Diagnostic :=
  (s.generator.map (·.diagnostics)).getD []

/-- The symbols of the generator. -/
def symbols? (s : Session) : Option Table :=
  s.generator.map (·.state.collection.table)

/-- All declarations of the tree at hand. -/
def collect (s : Session) : Collection :=
  Collection.ofTree false s.tree .empty

end Session

end FortranJulia
