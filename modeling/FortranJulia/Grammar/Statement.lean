import FortranJulia.Grammar.Declaration
import FortranJulia.Grammar.InputOutput

/-!
Executable statements and program units. The alternatives of a statement are tried in a fixed
order: output first, the arithmetic IF before assignments, assignments before statements that start
with a keyword.
-/

namespace FortranJulia.Grammar

set_option autoImplicit false

open Pattern

/-! ## Action statements -/

def arithmeticIfStmt : Pattern :=
  .node .arithmeticIfStmt (stmt
    [kw .IF, .token .lparen, expr, .token .rparen, lblRef, .token .comma, lblRef, .token .comma,
     lblRef])

def assignmentStmt : Pattern :=
  .node .assignmentStmt (stmt [variableRef, .token .equal, expr])

def assignStmt : Pattern :=
  .node .assignStmt (stmt [kw .ASSIGN, lblRef, kw .TO, name .variableName])

def subroutineArg : Pattern :=
  .node .subroutineArg (first
    [expr, .token .hollerithConst, .seq (.token .star) lblRef])

def callStmt : Pattern :=
  .node .callStmt (stmt [kw .CALL, name .subroutineNameUse,
    .opt (.attempt (all
      [.token .lparen, .opt (list .subroutineArgList subroutineArg), .token .rparen]))])

def continueStmt : Pattern := .node .continueStmt (stmt [kw .CONTINUE])

/-- GOTO in one word or two. -/
def goToKw : Pattern := .node .goToKw (first [kw .GOTO, .seq (kw .GO) (kw .TO)])

def gotoStmt : Pattern := .node .gotoStmt (stmt [goToKw, lblRef])

def computedGotoStmt : Pattern :=
  .node .computedGotoStmt (stmt
    [goToKw, .token .lparen, lblRefList, .token .rparen, .opt (.token .comma), expr])

def assignedGotoStmt : Pattern :=
  .node .assignedGotoStmt (stmt [goToKw, name .variableName,
    .opt (.attempt (all [.opt (.token .comma), .token .lparen, lblRefList, .token .rparen]))])

def actionStmt : Pattern := .call .actionStmt

/-- A condition and one statement, which brings its own end. -/
def ifStmt : Pattern :=
  .node .ifStmt (all
    [.opt lblDef, kw .IF, .token .lparen, expr, .token .rparen, actionStmt])

def pauseStmt : Pattern :=
  .node .pauseStmt (stmt [kw .PAUSE, .opt (.oneOf [.integerConst, .charConst])])

def returnStmt : Pattern := .node .returnStmt (stmt [kw .RETURN, .opt expr])

def stopStmt : Pattern :=
  .node .stopStmt (stmt [kw .STOP, .opt (.oneOf [.integerConst, .charConst])])

def stmtFunctionStmt : Pattern :=
  .node .stmtFunctionStmt (stmt
    [name .refName, .token .lparen, .opt (list .sfDummyArgNameList (name .sfDummyArgName)),
     .token .rparen, .token .equal, expr])

def actionStmtBody : Pattern :=
  .level .actionStmt (first
    [printStmt, arithmeticIfStmt, assignmentStmt, assignStmt, backspaceStmt, callStmt, closeStmt,
     continueStmt, endfileStmt, gotoStmt, computedGotoStmt, assignedGotoStmt, ifStmt, inquireStmt,
     openStmt, pauseStmt, readStmt, returnStmt, rewindStmt, stmtFunctionStmt, stopStmt, writeStmt])

/-! ## Loops and blocks -/

def loopControl : Pattern :=
  .node .loopControl (all
    [name .variableName, .token .equal, expr, .token .comma, expr,
     .opt (.attempt (.seq (.token .comma) expr))])

def labelDoStmt : Pattern :=
  .level .doConstruct (.node .labelDoStmt (stmt
    [kw .DO, .node .doLblRef (.token .integerConst), .opt (.token .comma), loopControl]))

def executableConstruct : Pattern := .call .executableConstruct

/-- A statement inside an IF block. -/
def executionPartConstruct : Pattern :=
  .level .executionPartConstruct (first [executableConstruct, formatStmt, dataStmt, entryStmt])

def conditionalBody : Pattern := .node .conditionalBody (.star executionPartConstruct)

/-- A condition in parentheses and the word THEN. -/
def thenCondition : List Pattern := [.token .lparen, expr, .token .rparen, kw .THEN]

def ifThenStmt : Pattern := .node .ifThenStmt (stmt (kw .IF :: thenCondition))

def elseIfStmt : Pattern :=
  .node .elseIfStmt (first
    [stmt (kw .ELSEIF :: thenCondition), stmt (kw .ELSE :: kw .IF :: thenCondition)])

def elseStmt : Pattern := .node .elseStmt (stmt [kw .ELSE])

def endIfStmt : Pattern := .node .endIfStmt (first [stmt [kw .ENDIF], stmt [kw .END, kw .IF]])

def ifConstruct : Pattern :=
  .node .ifConstruct (all
    [ifThenStmt, conditionalBody,
     .star (.attempt (.seq elseIfStmt conditionalBody)),
     .opt (.attempt (.seq elseStmt conditionalBody)),
     endIfStmt])

def executableConstructBody : Pattern :=
  .level .executableConstruct (first [actionStmt, labelDoStmt, ifConstruct])

/-! ## Program units -/

def bodyConstruct : Pattern :=
  .level .bodyConstruct (first [executableConstruct, specificationPartConstruct])

def body : Pattern := .node .body (plus bodyConstruct)

/-- The end of a unit: END alone, or followed by the kind of unit and an optional name. -/
def endStmt (label : Label) (one two : Keyword) : Pattern :=
  .node label (first
    [stmt [kw .END], stmt [kw one, .opt (name .endName)],
     stmt [kw .END, kw two, .opt (name .endName)]])

def programStmt : Pattern := .node .programStmt (stmt [kw .PROGRAM, name .programName])

def endProgramStmt : Pattern := endStmt .endProgramStmt .ENDPROGRAM .PROGRAM

def mainProgram : Pattern :=
  .node .mainProgram (first
    [all [programStmt, .opt body, endProgramStmt], all [.opt body, endProgramStmt]])

def functionStmt : Pattern :=
  .node .functionStmt (stmt
    [.opt typeSpec, kw .FUNCTION, name .functionName, .token .lparen,
     .opt (list .functionParList (name .dummyArgName)), .token .rparen])

def functionSubprogram : Pattern :=
  .node .functionSubprogram
    (all [functionStmt, .opt body, endStmt .endFunctionStmt .ENDFUNCTION .FUNCTION])

def subroutineStmt : Pattern :=
  .node .subroutineStmt (stmt [kw .SUBROUTINE, name .subroutineName, subroutinePars])

def subroutineSubprogram : Pattern :=
  .node .subroutineSubprogram
    (all [subroutineStmt, .opt body, endStmt .endSubroutineStmt .ENDSUBROUTINE .SUBROUTINE])

/-- BLOCK DATA in one word or two. -/
def blockDataKw : Pattern := .alt (kw .BLOCKDATA) (.attempt (.seq (kw .BLOCK) (kw .DATA)))

def blockDataStmt : Pattern :=
  .node .blockDataStmt (stmt [blockDataKw, .opt (name .blockDataName)])

def endBlockDataStmt : Pattern :=
  .node .endBlockDataStmt
    (stmt [kw .END, .opt (.seq blockDataKw (.opt (name .endName)))])

def blockDataSubprogram : Pattern :=
  .node .blockDataSubprogram (all [blockDataStmt, .opt body, endBlockDataStmt])

def programUnit : Pattern :=
  .level .programUnit
    (first [mainProgram, functionSubprogram, subroutineSubprogram, blockDataSubprogram])

/-- A whole source: program units between comments and empty lines. -/
def program : Pattern :=
  .node .program (all
    [.star commentOrNewline, .node .executableProgram (plus programUnit),
     .star commentOrNewline, .token .eof])

/-- A source that holds a single name. -/
def loneName : Pattern :=
  .node .loneName
    (all [.star commentOrNewline, .word, .star commentOrNewline, .token .eof])

end FortranJulia.Grammar

namespace FortranJulia

/-- The phrases that may contain themselves. -/
def grammar : Nonterminal → Pattern
  | .expr => Grammar.exprBody
  | .multOperand => Grammar.multOperandBody
  | .fmtSpec => Grammar.fmtSpecBody
  | .outputItem => Grammar.outputItemBody
  | .inputItem => Grammar.inputItemBody
  | .dataStmtObject => Grammar.dataStmtObjectBody
  | .actionStmt => Grammar.actionStmtBody
  | .executableConstruct => Grammar.executableConstructBody

end FortranJulia
