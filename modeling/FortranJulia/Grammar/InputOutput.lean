import FortranJulia.Grammar.Expression

/-!
Input and output statements: the transfer of items, and the statements that connect, inspect and
position files.
-/

namespace FortranJulia.Grammar

set_option autoImplicit false

open Pattern

/-! ## Formats and items -/

def formatIdentifier : Pattern :=
  .node .formatIdentifier (first
    [lblRef, .token .star, .token .charConst, name .variableName])

def outputItem : Pattern := .call .outputItem

def outputItemBody : Pattern :=
  .level .outputItem (first [impliedDo .outputImpliedDo .outputItemList outputItem, expr])

def outputItemList : Pattern := list .outputItemList outputItem

def inputItem : Pattern := .call .inputItem

def inputItemBody : Pattern :=
  .level .inputItem (first [impliedDo .inputImpliedDo .inputItemList inputItem, variableRef])

def inputItemList : Pattern := list .inputItemList inputItem

/-! ## Specifiers -/

def unitIdentifier : Pattern := .node .unitIdentifier (first [.token .star, expr])

def unitSpec : Pattern := .seq (spec .UNIT) unitIdentifier

def errSpec : Pattern := .seq (spec .ERR) lblRef

def iostatSpec : Pattern := .seq (spec .IOSTAT) variableRef

def ioControlSpec : Pattern :=
  .node .ioControlSpec (first
    [.seq (spec .FMT) formatIdentifier,
     unitSpec,
     .seq (spec .REC) expr,
     .seq (spec .END) lblRef,
     errSpec,
     iostatSpec,
     unitIdentifier])

def connectSpec : Pattern :=
  .node .connectSpec (first
    [unitSpec,
     errSpec,
     iostatSpec,
     .seq (.oneOf [.specifier .FILE, .specifier .STATUS, .specifier .ACCESS, .specifier .FORM,
       .specifier .RECL, .specifier .BLANK]) expr,
     unitIdentifier])

def closeSpec : Pattern :=
  .node .closeSpec (first
    [unitSpec, errSpec, iostatSpec, .seq (spec .STATUS) expr, unitIdentifier])

def inquireSpec : Pattern :=
  .node .inquireSpec (first
    [unitSpec,
     .seq (spec .FILE) expr,
     errSpec,
     .seq (.oneOf [.specifier .IOSTAT, .specifier .EXIST, .specifier .OPENED, .specifier .NUMBER,
       .specifier .NAMED, .specifier .NAME, .specifier .ACCESS, .specifier .SEQUENTIAL,
       .specifier .DIRECT, .specifier .FORM, .specifier .FORMATTED, .specifier .UNFORMATTED,
       .specifier .RECL, .specifier .NEXTREC, .specifier .BLANK]) variableRef,
     unitIdentifier])

def positionSpec : Pattern :=
  .node .positionSpec (first [unitSpec, errSpec, iostatSpec, unitIdentifier])

/-! ## Statements -/

def printStmt : Pattern :=
  .node .printStmt (first
    [stmt [kw .PRINT, formatIdentifier, .token .comma, outputItemList],
     stmt [kw .PRINT, formatIdentifier]])

/-- A keyword with specifiers in parentheses. -/
def withSpecs (k : Keyword) (label : Label) (item : Pattern) : List Pattern :=
  [kw k, .token .lparen, list label item, .token .rparen]

def readStmt : Pattern :=
  .node .readStmt (first
    [stmt (withSpecs .READ .ioControlSpecList ioControlSpec ++ [.opt inputItemList]),
     stmt [kw .READ, formatIdentifier,
       .opt (.attempt (.seq (.token .comma) inputItemList))]])

def writeStmt : Pattern :=
  .node .writeStmt
    (stmt (withSpecs .WRITE .ioControlSpecList ioControlSpec ++ [.opt outputItemList]))

def openStmt : Pattern := .node .openStmt (stmt (withSpecs .OPEN .connectSpecList connectSpec))

def closeStmt : Pattern := .node .closeStmt (stmt (withSpecs .CLOSE .closeSpecList closeSpec))

def inquireStmt : Pattern :=
  .node .inquireStmt (stmt (withSpecs .INQUIRE .inquireSpecList inquireSpec))

/-- A statement that positions a file, with specifiers or with a unit alone. -/
def positionStmt (label : Label) (k : Keyword) : Pattern :=
  .node label (first
    [stmt (withSpecs k .positionSpecList positionSpec), stmt [kw k, unitIdentifier]])

def backspaceStmt : Pattern := positionStmt .backspaceStmt .BACKSPACE

def endfileStmt : Pattern := positionStmt .endfileStmt .ENDFILE

def rewindStmt : Pattern := positionStmt .rewindStmt .REWIND

end FortranJulia.Grammar
