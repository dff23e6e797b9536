import FortranJulia.Grammar.Pattern

/-!
Expressions and references, weakest operator first: disjunction, conjunction, negation, comparison,
concatenation, sums, products and powers. Every level but the outermost gives way to its operand if
it holds nothing else. Whether a name with a list in parentheses is an array element or a call is
not decided here.
-/

namespace FortranJulia.Grammar

set_option autoImplicit false

open Pattern

def expr : Pattern := .call .expr

def sign : Pattern := .node .sign (.oneOf [.plus, .minus])

def complexComponent : Pattern :=
  .node .complexComponent (all [.opt sign, .oneOf [.integerConst, .realConst]])

/-- Two numbers, optionally signed, in parentheses. -/
def complexConst : Pattern :=
  .node .complexConst
    (all [.token .lparen, complexComponent, .token .comma, complexComponent, .token .rparen])

def unsignedArithmeticConstant : Pattern :=
  .node .unsignedArithmeticConstant
    (first [complexConst, .oneOf [.realConst, .integerConst]])

def logicalConstant : Pattern := .node .logicalConstant (.oneOf [.trueConst, .falseConst])

/-- A name with an empty list of arguments. -/
def functionReference : Pattern :=
  .node .functionReference (all [name .refName, .token .lparen, .token .rparen])

def lblRef : Pattern := .node .lblRef (.token .integerConst)

def lblRefList : Pattern := list .lblRefList lblRef

/-- A label in front of a statement. -/
def lblDef : Pattern := .node .lblDef (.token .integerConst)

/-- A subscript, a range of characters, an argument or an alternate return. -/
def sectionSubscript : Pattern :=
  .node .sectionSubscript (first
    [all [expr, .opt (.seq (.token .colon) (.opt expr))],
     .seq (.token .colon) (.opt expr),
     .seq (.token .star) lblRef])

def complexDataRefTail : Pattern :=
  .node .complexDataRefTail
    (all [.token .lparen, list .sectionSubscriptList sectionSubscript, .token .rparen])

/-- A name with any number of lists in parentheses. -/
def nameDataRef : Pattern :=
  .node .nameDataRef (.seq (name .refName) (.star complexDataRefTail))

/-- A name with optional subscripts and range of characters. -/
def variableRef : Pattern :=
  .node .variableRef (.seq (name .variableName) (.star complexDataRefTail))

def primary : Pattern :=
  .node .primary (first
    [unsignedArithmeticConstant,
     functionReference,
     nameDataRef,
     all [.token .lparen, expr, .token .rparen],
     .token .charConst,
     logicalConstant,
     .oneOf [.hollerithConst, .binaryConst, .octalConst, .hexConst]])

/-- Powers group to the right, and the right operand may have a sign. -/
def multOperandBody : Pattern :=
  .level .multOperand (.seq primary (.opt
    (.node .powerOp (all [.token .starStar, .opt sign, .call .multOperand]))))

def multOperand : Pattern := .call .multOperand

def addOperand : Pattern :=
  .level .addOperand (.seq multOperand (.star
    (.node .multOp (.seq (.oneOf [.star, .slash]) multOperand))))

def level2Expr : Pattern :=
  .level .level2Expr (all [.opt sign, addOperand, .star
    (.node .addOp (.seq (.oneOf [.plus, .minus]) addOperand))])

def level3Expr : Pattern :=
  .level .level3Expr (.seq level2Expr (.star
    (.node .concatOp (all [.token .slash, .token .slash, level2Expr]))))

def level4Expr : Pattern :=
  .level .level4Expr (.seq level3Expr (.opt
    (.node .relOp (.seq (.oneOf [.eqOp, .neOp, .ltOp, .leOp, .gtOp, .geOp]) level3Expr))))

def andOperand : Pattern :=
  .level .andOperand (.seq (.star (.token .notOp)) level4Expr)

def orOperand : Pattern :=
  .level .orOperand (.seq andOperand (.star
    (.node .andOp (.seq (.token .andOp) andOperand))))

def exprBody : Pattern :=
  .node .expr (.seq orOperand (.star
    (.node .orOp (.seq (.token .orOp) orOperand))))

/-! ## Ends and labels of statements -/

def commentOrNewline : Pattern := .oneOf [.comment, .newline]

/-- The end of a statement: comments and line ends, or nothing before the end of the source. -/
def endOfStmt : Pattern :=
  .node .endOfStmt (first [plus commentOrNewline, .check (.next [.eof])])

/-- A statement with an optional label in front and its end behind. -/
def stmt (body : List Pattern) : Pattern := all (.opt lblDef :: body ++ [endOfStmt])

/-! ## Implied loops -/

/-- The items of an implied loop. They end before the comma of the loop control. -/
def impliedDoItems (label : Label) (item : Pattern) : Pattern :=
  .node label (.seq item (.whileDo .moreItems (.attempt (.seq (.token .comma) item))))

/-- A comma, a loop variable and its bounds. -/
def impliedDoControl : List Pattern :=
  [.token .comma, name .impliedDoVariable, .token .equal, expr, .token .comma, expr,
   .opt (.attempt (.seq (.token .comma) expr))]

/-- Items and loop control in parentheses. -/
def impliedDo (label itemLabel : Label) (item : Pattern) : Pattern :=
  .node label
    (all ([.token .lparen, impliedDoItems itemLabel item] ++ impliedDoControl ++ [.token .rparen]))

end FortranJulia.Grammar
