import FortranJulia.Grammar.Match
import FortranJulia.Grammar.Statement
import FortranJulia.Token.Scan

/-!
Parsing of lexemes into a syntax tree. A parser may be run more than once: it goes on from the
token where the last run ended, numbers nodes onward, and still knows what was looked for at the
furthest token.
-/

namespace FortranJulia

set_option autoImplicit false

/-! ## Errors -/

/-- No phrase matches. The token is the furthest one at which a match failed, with the kinds that
were looked for there in the order in which they were first tried. -/
structure ParseError where
  source : String
  found : Lexeme
  expected : List Kind

namespace ParseError

def describe (lx : Lexeme) : String :=
  match lx.kind with
  | .eof => "end of file"
  | .newline => "end of line"
  | k => k.label ++ " " ++ Text.quoted lx.text

/-- Alternatives with commas between them and the word "or" before the last. -/
def orList : List String → String
  | [] => ""
  | [a] => a
  | [a, b] => a ++ " or " ++ b
  | a :: rest => a ++ ", " ++ orList rest

def reason (e : ParseError) : String :=
  "unexpected " ++ describe e.found ++
    (if e.expected.isEmpty then "" else ", expected " ++ orList (e.expected.map Kind.label))

/-- The place and the reason. -/
def message (e : ParseError) : String :=
  e.source ++ ":" ++ Decimal.digits e.found.line ++
    (if e.found.col > 0 then ":" ++ Decimal.digits e.found.col else "") ++ ": " ++ e.reason

end ParseError

/-! ## Parsers -/

structure Parser where
  source : String
  tokens : Array Lexeme
  state : Match.State := {}

namespace Parser

/-- A parser at the first of the tokens, which have to end with the end of the source. -/
def start? (source : String) (tokens : List Lexeme) : Option Parser :=
  match tokens.getLast? with
  | some lx => if lx.kind == .eof then some { source, tokens := tokens.toArray } else none
  | none => none

/-- Puts other tokens in the place of the first ones, as far as there are any. -/
def overwrite (p : Parser) (tokens : List Lexeme) : Parser :=
  let count := p.tokens.size
  { p with tokens := (tokens.take count).toArray ++ p.tokens.extract tokens.length count }

def resetMessage : String := "token sequence not terminated by EOF"

/-- The number of nodes made and not given up again. -/
def count (p : Parser) : Nat :=
  p.state.tree.length

/-- The tree of the last run that succeeded. -/
def root (p : Parser) : Option Node :=
  p.state.tree.rootTree.toOption

/-- A bound on the depth of a match: between two tokens that are taken, the grammar is never
deeper than the factor. -/
def depthBound (tokens : Array Lexeme) : Nat :=
  (tokens.size + 2) * 4096

/-- Matches one of the patterns for a whole source. -/
def tryRoot (p : Parser) (pattern : Pattern) : Except Fault (Bool × Parser) := do
  let (outcome, state) ←
    Match.run grammar p.tokens (depthBound p.tokens) pattern none p.state
  return (outcome == .matched, { p with state })

def failure (p : Parser) : ParseError :=
  let r := p.state.reach
  ⟨p.source, p.tokens.getD (min r.furthest (p.tokens.size - 1)) default, r.expected⟩

/-- The tree and the parser after a run that succeeded. -/
def finish (p : Parser) : Except Fault (Except ParseError Node × Parser) := do
  return (.ok (← Fault.ofArena p.state.tree.rootTree), p)

/-- Parses a program or, where that fails, a single name. -/
def parse (p : Parser) : Except Fault (Except ParseError Node × Parser) := do
  match ← p.tryRoot Grammar.program with
  | (true, q) => q.finish
  | (false, q) =>
    match ← q.tryRoot Grammar.loneName with
    | (true, r) => r.finish
    | (false, r) => return (.error r.failure, r)

end Parser

/-- The syntax tree of lexemes and the number of nodes made for it. -/
def parseChecked (name : String) (tokens : List Lexeme) :
    Except Fault (Except ParseError (Node × Nat)) :=
  match Parser.start? name tokens with
  | some p => do
    match ← p.parse with
    | (.ok n, q) => return .ok (n, q.count)
    | (.error e, _) => return .error e
  | none => return .error ⟨name, default, []⟩

/-- The syntax tree of lexemes; a fault counts as an error without a token. -/
def parseTokens (name : String) (tokens : List Lexeme) : Except ParseError (Node × Nat) :=
  match parseChecked name tokens with
  | .ok r => r
  | .error _ => .error ⟨name, default, []⟩

/-- The syntax tree of a source and the number of nodes made for it. -/
def parseSource (name source : String) : Except ParseError (Node × Nat) :=
  parseTokens name (scan source)

end FortranJulia
