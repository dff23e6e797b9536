import FortranJulia.Text.Case

/-!
The kinds of tokens. Keywords and the words that may stand before `=` in an input or output
statement are types of their own, spelled as FORTRAN spells them; a kind is one of those or a
constant, a punctuation mark, an operator between dots or the end of a line or of the source.
-/

namespace FortranJulia

set_option autoImplicit false

/-! ## Words -/

/-- The reserved words. -/
inductive Keyword where
  | INTEGER | REAL | DOUBLE | PRECISION | DOUBLEPRECISION | COMPLEX | LOGICAL | CHARACTER
  | PROGRAM | END | ENDPROGRAM | SUBROUTINE | ENDSUBROUTINE | FUNCTION | ENDFUNCTION | BLOCK
  | BLOCKDATA | ENTRY | DATA | DIMENSION | COMMON | EQUIVALENCE | EXTERNAL | INTRINSIC | SAVE
  | IMPLICIT | NONE | PARAMETER | FORMAT | IF | THEN | ELSE | ELSEIF | ENDIF | DO | CONTINUE
  | GOTO | GO | TO | CALL | RETURN | STOP | PAUSE | ASSIGN | PRINT | READ | WRITE | OPEN | CLOSE
  | INQUIRE | BACKSPACE | REWIND | ENDFILE
  deriving DecidableEq, Repr

/-- The words that name a specifier of an input or output statement when `=` follows. -/
inductive Specifier where
  | UNIT | FILE | ERR | IOSTAT | EXIST | OPENED | NUMBER | NAMED | NAME | ACCESS | SEQUENTIAL
  | DIRECT | FORM | FORMATTED | UNFORMATTED | RECL | NEXTREC | BLANK | FMT | REC | END | STATUS
  deriving DecidableEq, Repr

namespace Keyword

/-- All keywords; those that declare a type come first. -/
def all : List Keyword :=
  [.INTEGER, .REAL, .DOUBLE, .PRECISION, .DOUBLEPRECISION, .COMPLEX, .LOGICAL, .CHARACTER,
   .PROGRAM, .END, .ENDPROGRAM, .SUBROUTINE, .ENDSUBROUTINE, .FUNCTION, .ENDFUNCTION, .BLOCK,
   .BLOCKDATA, .ENTRY, .DATA, .DIMENSION, .COMMON, .EQUIVALENCE, .EXTERNAL, .INTRINSIC, .SAVE,
   .IMPLICIT, .NONE, .PARAMETER, .FORMAT, .IF, .THEN, .ELSE, .ELSEIF, .ENDIF, .DO, .CONTINUE,
   .GOTO, .GO, .TO, .CALL, .RETURN, .STOP, .PAUSE, .ASSIGN, .PRINT, .READ, .WRITE, .OPEN, .CLOSE,
   .INQUIRE, .BACKSPACE, .REWIND, .ENDFILE]

def spelling : Keyword → String
  | .INTEGER => "INTEGER"
  | .REAL => "REAL"
  | .DOUBLE => "DOUBLE"
  | .PRECISION => "PRECISION"
  | .DOUBLEPRECISION => "DOUBLEPRECISION"
  | .COMPLEX => "COMPLEX"
  | .LOGICAL => "LOGICAL"
  | .CHARACTER => "CHARACTER"
  | .PROGRAM => "PROGRAM"
  | .END => "END"
  | .ENDPROGRAM => "ENDPROGRAM"
  | .SUBROUTINE => "SUBROUTINE"
  | .ENDSUBROUTINE => "ENDSUBROUTINE"
  | .FUNCTION => "FUNCTION"
  | .ENDFUNCTION => "ENDFUNCTION"
  | .BLOCK => "BLOCK"
  | .BLOCKDATA => "BLOCKDATA"
  | .ENTRY => "ENTRY"
  | .DATA => "DATA"
  | .DIMENSION => "DIMENSION"
  | .COMMON => "COMMON"
  | .EQUIVALENCE => "EQUIVALENCE"
  | .EXTERNAL => "EXTERNAL"
  | .INTRINSIC => "INTRINSIC"
  | .SAVE => "SAVE"
  | .IMPLICIT => "IMPLICIT"
  | .NONE => "NONE"
  | .PARAMETER => "PARAMETER"
  | .FORMAT => "FORMAT"
  | .IF => "IF"
  | .THEN => "THEN"
  | .ELSE => "ELSE"
  | .ELSEIF => "ELSEIF"
  | .ENDIF => "ENDIF"
  | .DO => "DO"
  | .CONTINUE => "CONTINUE"
  | .GOTO => "GOTO"
  | .GO => "GO"
  | .TO => "TO"
  | .CALL => "CALL"
  | .RETURN => "RETURN"
  | .STOP => "STOP"
  | .PAUSE => "PAUSE"
  | .ASSIGN => "ASSIGN"
  | .PRINT => "PRINT"
  | .READ => "READ"
  | .WRITE => "WRITE"
  | .OPEN => "OPEN"
  | .CLOSE => "CLOSE"
  | .INQUIRE => "INQUIRE"
  | .BACKSPACE => "BACKSPACE"
  | .REWIND => "REWIND"
  | .ENDFILE => "ENDFILE"

/-- The keyword a word spells, in any letter case. -/
def ofWord? (word : String) : Option Keyword :=
  let w := Text.upper word
  all.find? (·.spelling == w)

/-- Does the keyword begin a type? -/
def isType (k : Keyword) : Bool :=
  (all.take 8).contains k

end Keyword

namespace Specifier

def all : List Specifier :=
  [.UNIT, .FILE, .ERR, .IOSTAT, .EXIST, .OPENED, .NUMBER, .NAMED, .NAME, .ACCESS, .SEQUENTIAL,
   .DIRECT, .FORM, .FORMATTED, .UNFORMATTED, .RECL, .NEXTREC, .BLANK, .FMT, .REC, .END, .STATUS]

def spelling : Specifier → String
  | .UNIT => "UNIT"
  | .FILE => "FILE"
  | .ERR => "ERR"
  | .IOSTAT => "IOSTAT"
  | .EXIST => "EXIST"
  | .OPENED => "OPENED"
  | .NUMBER => "NUMBER"
  | .NAMED => "NAMED"
  | .NAME => "NAME"
  | .ACCESS => "ACCESS"
  | .SEQUENTIAL => "SEQUENTIAL"
  | .DIRECT => "DIRECT"
  | .FORM => "FORM"
  | .FORMATTED => "FORMATTED"
  | .UNFORMATTED => "UNFORMATTED"
  | .RECL => "RECL"
  | .NEXTREC => "NEXTREC"
  | .BLANK => "BLANK"
  | .FMT => "FMT"
  | .REC => "REC"
  | .END => "END"
  | .STATUS => "STATUS"

/-- The specifier a word spells, in any letter case. -/
def ofWord? (word : String) : Option Specifier :=
  let w := Text.upper word
  all.find? (·.spelling == w)

end Specifier

/-! ## Kinds -/

/-- The kinds of tokens. -/
inductive Kind where
  | eof | newline | comment | name
  | integerConst | realConst | charConst | hollerithConst | binaryConst | octalConst | hexConst
  | editConst | blankConst | scaleConst
  | lparen | rparen | lparenBar | barRparen | comma | dot | colon | colonColon | equal | plus
  | minus | star | starStar | slash | dollar | percent | underscore
  | eqOp | neOp | ltOp | leOp | gtOp | geOp | andOp | orOp | notOp | trueConst | falseConst
  | specifier (s : Specifier)
  | keyword (k : Keyword)
  deriving DecidableEq, Repr

namespace Kind

def constants : List Kind :=
  [.integerConst, .realConst, .charConst, .hollerithConst, .binaryConst, .octalConst, .hexConst,
   .editConst, .blankConst, .scaleConst]

def punctuation : List Kind :=
  [.lparen, .rparen, .lparenBar, .barRparen, .comma, .dot, .colon, .colonColon, .equal, .plus,
   .minus, .star, .starStar, .slash, .dollar, .percent, .underscore]

/-- What is written between dots: the operators and the logical constants. -/
def dotted : List Kind :=
  [.eqOp, .neOp, .ltOp, .leOp, .gtOp, .geOp, .andOp, .orOp, .notOp, .trueConst, .falseConst]

/-- All kinds, in the order of their numbers. -/
def all : List Kind :=
  [.eof, .newline, .comment, .name] ++ constants ++ punctuation ++ dotted ++
    Specifier.all.map .specifier ++ Keyword.all.map .keyword

/-- Kinds are numbered from one. -/
def number (k : Kind) : Nat :=
  all.idxOf k + 1

def ofNumber? (n : Nat) : Option Kind :=
  if n == 0 then none else all[n - 1]?

/-- The name of what has no kind. -/
def undefinedLabel : String := "<undefined>"

/-- The name of a kind, which is also the label of its leaves in a syntax tree. -/
def label : Kind → String
  | .eof => "EOF"
  | .newline => "NEWLINE"
  | .comment => "COMMENT"
  | .name => "ID"
  | .integerConst => "ICON"
  | .realConst => "RDCON"
  | .charConst => "SCON"
  | .hollerithConst => "HCON"
  | .binaryConst => "BCON"
  | .octalConst => "OCON"
  | .hexConst => "ZCON"
  | .editConst => "FCON"
  | .blankConst => "XCON"
  | .scaleConst => "PCON"
  | .lparen => "LPAREN"
  | .rparen => "RPAREN"
  | .lparenBar => "LPAREN_SLASH"
  | .barRparen => "SLASH_RPAREN"
  | .comma => "COMMA"
  | .dot => "DOT"
  | .colon => "COLON"
  | .colonColon => "COLON_COLON"
  | .equal => "EQUAL"
  | .plus => "PLUS"
  | .minus => "MINUS"
  | .star => "STAR"
  | .starStar => "STAR_STAR"
  | .slash => "SLASH"
  | .dollar => "DOLLAR"
  | .percent => "PERCENT"
  | .underscore => "UNDERSCORE"
  | .eqOp => "EQUAL_EQUAL"
  | .neOp => "BANG_EQUAL"
  | .ltOp => "LESS"
  | .leOp => "LESS_EQUAL"
  | .gtOp => "GREATER"
  | .geOp => "GREATER_EQUAL"
  | .andOp => "AND"
  | .orOp => "OR"
  | .notOp => "NOT"
  | .trueConst => "TRUE"
  | .falseConst => "FALSE"
  | .specifier s => s.spelling ++ "_EQUAL"
  | .keyword k => k.spelling

def ofLabel? (s : String) : Option Kind :=
  all.find? (·.label == s)

/-! ## Classes -/

def isKeyword : Kind → Bool
  | .keyword _ => true
  | _ => false

/-- Does the kind begin a type? -/
def isType : Kind → Bool
  | .keyword k => k.isType
  | _ => false

/-- Does the kind carry a constant: a number, a text or an edit descriptor? -/
def isConstant (k : Kind) : Bool :=
  constants.contains k

def isPunctuation (k : Kind) : Bool :=
  punctuation.contains k

/-- Is the kind written between dots? -/
def isDotted (k : Kind) : Bool :=
  dotted.contains k

def isSpecifier : Kind → Bool
  | .specifier _ => true
  | _ => false

/-- Does the kind end a statement? -/
def endsStatement (k : Kind) : Bool :=
  k == .newline || k == .comment || k == .eof

/-! ## Words to kinds -/

/-- A word outside a specifier is a keyword or a name. -/
def ofWord (word : String) : Kind :=
  match Keyword.ofWord? word with
  | some k => .keyword k
  | none => .name

/-- The kind of a word between dots, in any letter case. Equivalence of logical values is
equality. -/
def ofDotted? (word : String) : Option Kind :=
  match Text.upper word with
  | "EQ" | "EQV" => some .eqOp
  | "NE" | "NEQV" => some .neOp
  | "LT" => some .ltOp
  | "LE" => some .leOp
  | "GT" => some .gtOp
  | "GE" => some .geOp
  | "AND" => some .andOp
  | "OR" => some .orOp
  | "NOT" => some .notOp
  | "TRUE" => some .trueConst
  | "FALSE" => some .falseConst
  | _ => none

end Kind

end FortranJulia
