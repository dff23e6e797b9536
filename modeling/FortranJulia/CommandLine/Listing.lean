import FortranJulia.Julia.Expr
import FortranJulia.Symbol.Collect

/-!
Listings of lexemes and symbols.
-/

namespace FortranJulia.CommandLine

set_option autoImplicit false

open Julia.Expr (separated)

/-! ## Lexemes -/

def tokenList (lexemes : List Lexeme) : String :=
  String.join (lexemes.map fun lx => lx.listing ++ "\n")

/-- A literal in a dump: texts are quoted. -/
def literalDump : Option Literal → String
  | none => "nil"
  | some (.text s) => Text.quoted s
  | some v => v.render

/-- All fields of a lexeme. -/
def lexemeDump (lx : Lexeme) : String :=
  let field (name value : String) : String := "    " ++ name ++ ": " ++ value ++ ",\n"
  "  token.Lexeme\x7b\n" ++ field "Tok" (Decimal.digits lx.kind.number) ++
    field "Text" (Text.quoted lx.text) ++ field "Literal" (literalDump lx.value) ++
    field "Line" (Decimal.digits lx.line) ++ field "Col" (Decimal.digits lx.col) ++ "  \x7d,\n"

def tokenDump (lexemes : List Lexeme) : String :=
  "[]token.Lexeme\x7b\n" ++ String.join (lexemes.map lexemeDump) ++ "\x7d\n"

/-! ## Symbols -/

/-- The word for a kind of program unit. -/
def unitWord : ScopeKind → String
  | .program => "PROG"
  | .subroutine => "SUB"
  | .function => "FUNC"
  | .blockData => "BDATA"
  | .global => "UNIT"

/-- The word for what a symbol is in its unit. -/
def roleWord (y : Symbol) : String :=
  if y.flags.common then "COMMON"
  else if y.flags.parameter then "PARAM"
  else if y.flags.formal then "FORMAL"
  else
    match y.kind with
    | .unknown | .variableName => "LOCAL"
    | k => Text.upper k.text

/-- The type and name of a symbol, with the bounds of an array. -/
def typeText (y : Symbol) : String :=
  (match y.type with
   | some t => t.text
   | none => "?") ++ ":" ++ y.name ++
    (if y.isArray then "(" ++ separated "," y.dims ++ ")" else "")

def symbolLine (unit : Scope) (y : Symbol) : String :=
  unitWord unit.kind ++ "(" ++ unit.name ++ ") " ++ roleWord y ++ "(" ++ typeText y ++ ")" ++
    (if y.flags.implicit then " IMPLICIT" else "") ++
    (if y.flags.assigned then " ASSIGNED" else "") ++ "\n"

/-- Does a text hold another one? -/
def holds (part : List Char) : List Char → Bool
  | [] => part.isEmpty
  | c :: cs => part.isPrefixOf (c :: cs) || holds part cs

/-- Is a symbol listed? An empty filter or type asks for nothing. -/
def isListed (filter type : String) (y : Symbol) : Bool :=
  (filter == "" || holds (Text.upper filter).toList (Text.upper y.name).toList) &&
    (type == "" || Text.foldedEq (TypeName.textOf y.type) type)

/-- The symbols of all units. -/
def symbolList (t : Table) (filter type : String) : String :=
  String.join (t.units.flatMap fun unit =>
    ((unit.symbols.map (·.2)).filter (isListed filter type)).map (symbolLine unit))

end FortranJulia.CommandLine
