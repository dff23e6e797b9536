import FortranJulia.Grammar.Expression

/-!
Specification statements: types, dimensions, common blocks, initial values, equivalences, external
and intrinsic procedures, saved entities, implicit types, named constants, formats and entries.
-/

namespace FortranJulia.Grammar

set_option autoImplicit false

open Pattern

/-! ## Types and dimensions -/

def kindSelector : Pattern := .node .kindSelector (.seq (.token .star) (.token .integerConst))

/-- A length after a star, in parentheses or as a number; a star stands for any length. -/
def lengthSelector : Pattern :=
  .node .lengthSelector (first
    [all [.token .star, .token .lparen, .alt (.token .star) expr, .token .rparen],
     .seq (.token .star) (.token .integerConst)])

def typeSpec : Pattern :=
  .node .typeSpec (first
    [.seq (kw .CHARACTER) lengthSelector,
     .seq (kw .DOUBLE) (kw .PRECISION),
     kw .CHARACTER,
     .seq (kw .INTEGER) (.opt kindSelector),
     .seq (kw .REAL) (.opt kindSelector),
     kw .DOUBLEPRECISION,
     .seq (kw .COMPLEX) (.opt kindSelector),
     .seq (kw .LOGICAL) (.opt kindSelector)])

/-- One dimension: an optional lower bound and an upper bound, which may be a star. -/
def explicitShapeSpec : Pattern :=
  .node .explicitShapeSpec (.seq
    (.opt (.attempt (.seq (.node .lowerBound expr) (.token .colon))))
    (.node .upperBound (first [expr, .token .star])))

def arraySpec : Pattern := list .arraySpec explicitShapeSpec

/-- Dimensions in parentheses. -/
def dimensions : Pattern := all [.token .lparen, arraySpec, .token .rparen]

def entityDecl : Pattern :=
  .node .entityDecl
    (all [name .objectName, .opt (.attempt dimensions), .opt lengthSelector])

def typeDeclarationStmt : Pattern :=
  .node .typeDeclarationStmt (stmt [typeSpec, list .entityDeclList entityDecl])

def arrayDeclarator : Pattern :=
  .node .arrayDeclarator
    (all [name .variableName, .token .lparen, arraySpec, .token .rparen])

def dimensionStmt : Pattern :=
  .node .dimensionStmt (stmt [kw .DIMENSION, list .arrayDeclaratorList arrayDeclarator])

/-! ## Common blocks -/

/-- The name of a common block between slashes, or two slashes. -/
def comblock : Pattern :=
  .node .comblock (all [.token .slash, .opt (name .commonBlockName), .token .slash])

def commonBlockObject : Pattern :=
  .node .commonBlockObject (.seq (name .variableName) (.opt (.attempt dimensions)))

def commonBlock : Pattern :=
  .node .commonBlock (.seq (.opt comblock) (list .commonBlockObjectList commonBlockObject))

def commonStmt : Pattern :=
  .node .commonStmt (stmt [kw .COMMON, commonBlock,
    .star (.attempt (all [.opt (.token .comma), .check (.next [.slash]), commonBlock]))])

/-! ## Initial values -/

def dataStmtObject : Pattern := .call .dataStmtObject

def dataStmtObjectBody : Pattern :=
  .level .dataStmtObject
    (first [impliedDo .dataImpliedDo .dataIDoObjectList dataStmtObject, variableRef])

def dataConstant : Pattern :=
  .node .dataConstant (first
    [.seq (.opt sign) unsignedArithmeticConstant,
     .oneOf [.charConst, .hollerithConst, .binaryConst, .octalConst, .hexConst],
     logicalConstant,
     name .namedConstantUse])

/-- A constant, with an optional count of repetitions and a star in front. -/
def dataStmtValue : Pattern :=
  .node .dataStmtValue (.seq
    (.opt (.attempt (.seq
      (.node .dataRepeat (.alt (.token .integerConst) (name .namedConstantUse)))
      (.token .star))))
    dataConstant)

def dataStmtSet : Pattern :=
  .node .dataStmtSet (all
    [list .dataStmtObjectList dataStmtObject, .token .slash,
     list .dataStmtValueList dataStmtValue, .token .slash])

def dataStmt : Pattern :=
  .node .dataStmt (stmt [kw .DATA, dataStmtSet,
    .star (.attempt (.seq (.opt (.token .comma)) dataStmtSet))])

/-! ## Other specifications -/

def equivalenceSet : Pattern :=
  .node .equivalenceSet (all
    [.token .lparen, variableRef, .token .comma, list .equivalenceObjectList variableRef,
     .token .rparen])

def equivalenceStmt : Pattern :=
  .node .equivalenceStmt (stmt [kw .EQUIVALENCE, list .equivalenceSetList equivalenceSet])

def externalStmt : Pattern :=
  .node .externalStmt (stmt [kw .EXTERNAL, list .externalNameList (name .externalName)])

def intrinsicStmt : Pattern :=
  .node .intrinsicStmt (stmt [kw .INTRINSIC, list .intrinsicList (name .intrinsicProcedureName)])

def savedEntity : Pattern := .node .savedEntity (first [name .variableName, comblock])

def saveStmt : Pattern :=
  .node .saveStmt (stmt [kw .SAVE, .opt (list .savedEntityList savedEntity)])

/-- A letter or two letters with a minus sign between them. -/
def implicitRange : Pattern :=
  .node .implicitRange (.seq .word (.opt (.attempt (.seq (.token .minus) .word))))

def implicitSpec : Pattern :=
  .node .implicitSpec (all
    [typeSpec, .token .lparen, list .implicitRangeList implicitRange, .token .rparen])

def implicitStmt : Pattern :=
  .node .implicitStmt (first
    [stmt [kw .IMPLICIT, kw .NONE],
     stmt [kw .IMPLICIT, list .implicitSpecList implicitSpec]])

def namedConstantDef : Pattern :=
  .node .namedConstantDef (all [name .namedConstant, .token .equal, expr])

def parameterStmt : Pattern :=
  .node .parameterStmt (stmt
    [kw .PARAMETER, .token .lparen, list .namedConstantDefList namedConstantDef, .token .rparen])

def fmtSpec : Pattern := .call .fmtSpec

/-- Any tokens with balanced parentheses up to a closing one or the end of the line. -/
def fmtSpecBody : Pattern :=
  .node .fmtSpec (.whileDo (.notNext [.rparen, .newline, .comment, .eof])
    (.branch (.next [.lparen])
      (.attempt (all [.token .lparen, fmtSpec, .token .rparen]))
      .any))

def formatStmt : Pattern :=
  .node .formatStmt (stmt [kw .FORMAT, .token .lparen, fmtSpec, .token .rparen])

/-- A dummy argument of a subroutine; a star is an alternate return. -/
def subroutinePar : Pattern :=
  .node .subroutinePar (first [name .dummyArgName, .token .star])

/-- An optional list of dummy arguments, which may be empty, in parentheses. -/
def subroutinePars : Pattern :=
  .opt (.attempt (all
    [.token .lparen, .opt (list .subroutineParList subroutinePar), .token .rparen]))

def entryStmt : Pattern :=
  .node .entryStmt (stmt [kw .ENTRY, name .entryName, subroutinePars])

/-! ## All of them -/

def specificationStmt : Pattern :=
  .level .specificationStmt (first
    [commonStmt, dataStmt, dimensionStmt, equivalenceStmt, externalStmt, intrinsicStmt, saveStmt])

def declarationConstruct : Pattern :=
  .level .declarationConstruct (first [typeDeclarationStmt, specificationStmt])

def specificationPartConstruct : Pattern :=
  .level .specificationPartConstruct (first
    [implicitStmt, parameterStmt, formatStmt, entryStmt, declarationConstruct])

end FortranJulia.Grammar
