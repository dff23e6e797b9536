import FortranJulia.Token.Lexeme
import FortranJulia.Text.Blank

/-!
Scanning: fixed-form FORTRAN source to lexemes. One step looks at the first character and decides
how many further characters belong with it and what they are. Every step takes at least one
character, so scanning ends for every source; characters that start nothing are skipped.
-/

namespace FortranJulia.Scan

set_option autoImplicit false

open Decimal (isDigit)

/-! ## Character classes -/

def isLetter (c : Char) : Bool :=
  ('a' ≤ c && c ≤ 'z') || ('A' ≤ c && c ≤ 'Z') || c == '_'

def isWordChar (c : Char) : Bool :=
  isLetter c || isDigit c

def isBinaryDigit (c : Char) : Bool :=
  c == '0' || c == '1'

def isOctalDigit (c : Char) : Bool :=
  '0' ≤ c && c ≤ '7'

def isHexDigit (c : Char) : Bool :=
  isDigit c || ('a' ≤ c && c ≤ 'f') || ('A' ≤ c && c ≤ 'F')

def isExponentLetter (c : Char) : Bool :=
  c == 'E' || c == 'e' || c == 'D' || c == 'd'

/-- The length of the run of characters in a class at the front of a list. -/
def run (p : Char → Bool) (cs : List Char) : Nat :=
  (cs.takeWhile p).length

/-! ## One token -/

/-- What a step finds: the number of characters it takes after the first one and, unless they are
skipped, their kind and value. A text is given only where it is not what the characters read. -/
structure Piece where
  extra : Nat
  kind : Option Kind := none
  value : Option Literal := none
  text : Option String := none

namespace Piece

def skip : Piece := ⟨0, none, none, none⟩

def plain (kind : Kind) (extra : Nat) : Piece := ⟨extra, some kind, none, none⟩

def constant (kind : Kind) (extra : Nat) (value : Option Literal) : Piece :=
  ⟨extra, some kind, value, none⟩

end Piece

/-- The rest of the line, without the carriage returns at its end. -/
def comment (c : Char) (cs : List Char) : Piece :=
  let line := cs.takeWhile (· != '\n')
  ⟨line.length, some .comment, none,
    some (String.ofList (Text.dropTrailing (· == '\r') (c :: line)))⟩

/-- The value of a character constant after its opening quote, and the number of characters up to
the end of the constant: its closing quote or the end of the line. -/
def quotedText (quote : Char) : List Char → List Char × Nat
  | [] => ([], 0)
  | c :: cs =>
    if c == quote then
      match cs with
      | d :: ds =>
        if d == quote then
          let (value, n) := quotedText quote ds
          (quote :: value, n + 2)
        else ([], 1)
      | [] => ([], 1)
    else if c == '\n' then ([], 0)
    else
      let (value, n) := quotedText quote cs
      (c :: value, n + 1)

/-- A character constant; its text is the Julia string of its value. -/
def charConstant (quote : Char) (cs : List Char) : Piece :=
  let (value, n) := quotedText quote cs
  let s := String.ofList value
  ⟨n, some .charConst, some (.text s), some (Text.juliaString s)⟩

/-- An operator or logical constant at the front of the characters that follow a dot, with the
number of characters through its closing dot. -/
def dottedWord? (cs : List Char) : Option (Kind × Nat) :=
  let word := cs.takeWhile isLetter
  match word, cs.dropWhile isLetter with
  | _ :: _, '.' :: _ => (Kind.ofDotted? (String.ofList word)).map fun k => (k, word.length + 1)
  | _, _ => none

/-- The length of an exponent: a letter, an optional sign and digits. -/
def exponentLength : List Char → Nat
  | e :: cs =>
    if isExponentLetter e then
      match cs with
      | s :: ds =>
        if isDigit s then 1 + run isDigit cs
        else if (s == '+' || s == '-') && run isDigit ds > 0 then 2 + run isDigit ds
        else 0
      | [] => 0
    else 0
  | [] => 0

/-- A real constant of the given characters and `extra` more than its first one. -/
def realConstant (c : Char) (cs : List Char) (extra : Nat) : Piece :=
  .constant .realConst extra (some (.real (Decimal.real (c :: cs.take extra))))

/-- The value of a run of digits: a whole number if it has 64 bits, else a real if that is
finite. -/
def integerValue (ds : List Char) : Option Literal :=
  let n := Decimal.ofDigits ds
  if n ≤ Decimal.maxInt then some (.int n)
  else
    match Decimal.scaled n 0 with
    | .infinite => none
    | x => some (.real x)

/-- What starts with a dot. -/
def dot (cs : List Char) : Piece :=
  match cs with
  | d :: _ =>
    if isDigit d then
      let n := run isDigit cs
      realConstant '.' cs (n + exponentLength (cs.drop n))
    else
      match dottedWord? cs with
      | some (.trueConst, n) => .constant .trueConst n (some (.truth true))
      | some (.falseConst, n) => .constant .falseConst n (some (.truth false))
      | some (k, n) => .plain k n
      | none => .plain .dot 0
  | [] => .plain .dot 0

/-- A count, the letter H and that many characters of the line. -/
def hollerith (count : Nat) (n : Nat) (cs : List Char) : Piece :=
  let length := if count ≤ Decimal.maxInt then count else 0
  let payload := ((cs.drop (n + 1)).take length).takeWhile (· != '\n')
  .constant .hollerithConst (n + 1 + payload.length) (some (.text (String.ofList payload)))

/-- What starts with a digit: a Hollerith constant, a real or whole number or a count of blanks. A
dot after the digits belongs to an operator if one follows. -/
def number (c : Char) (cs : List Char) : Piece :=
  let n := run isDigit cs
  let integer := Piece.constant .integerConst n (integerValue (c :: cs.take n))
  match cs.drop n with
  | next :: rest =>
    if next == 'H' || next == 'h' then hollerith (Decimal.ofDigits (c :: cs.take n)) n cs
    else if next == '.' then
      if (dottedWord? rest).isSome then integer
      else
        let f := run isDigit rest
        realConstant c cs (n + 1 + f + exponentLength (rest.drop f))
    else if isExponentLetter next then
      match exponentLength (next :: rest) with
      | 0 => integer
      | e => realConstant c cs (n + e)
    else if next == 'X' || next == 'x' then
      if rest.head?.any isWordChar then integer else .plain .blankConst (n + 1)
    else integer
  | [] => integer

/-- A word. Inside parentheses, one that names a specifier takes the `=` after it. -/
def word (depth : Nat) (c : Char) (cs : List Char) : Piece :=
  let n := run isWordChar cs
  let text := String.ofList (c :: cs.take n)
  let rest := cs.drop n
  let blanks := run (fun b => b == ' ' || b == '\t') rest
  let specifier? :=
    match rest.drop blanks with
    | '=' :: after =>
      if depth > 0 && after.head? != some '=' then Specifier.ofWord? text else none
    | _ => none
  match specifier? with
  | some s => .plain (.specifier s) (n + blanks + 1)
  | none => .plain (Kind.ofWord text) n

/-- A constant of another radix between quotes, or a word. -/
def radix (kind : Kind) (valid : Char → Bool) (depth : Nat) (c : Char) (cs : List Char) : Piece :=
  match cs with
  | q :: rest =>
    if q == '\'' || q == '"' then
      let n := run valid rest
      .plain kind (if (rest.drop n).head? == some q then n + 2 else n + 1)
    else word depth c cs
  | [] => word depth c cs

/-- An edit descriptor such as `I5` or `F10.2`, unless a longer word starts here. -/
def edit (depth : Nat) (c : Char) (cs : List Char) : Piece :=
  let n := run isDigit cs
  let m :=
    match cs.drop n with
    | '.' :: rest => if run isDigit rest > 0 then n + 1 + run isDigit rest else n
    | _ => n
  if (cs.drop m).head?.any isWordChar then word depth c cs else .plain .editConst m

/-- One step at the characters `c :: cs`, inside `depth` parentheses. -/
def piece (lineStart : Bool) (depth : Nat) (c : Char) (cs : List Char) : Piece :=
  match c with
  | ' ' | '\t' | '\r' | '\x0c' => .skip
  | '\n' => .plain .newline 0
  | '!' => comment c cs
  | 'C' | 'c' => if lineStart then comment c cs else word depth c cs
  | '*' =>
    if lineStart then comment c cs
    else if cs.head? == some '*' then .plain .starStar 1
    else .plain .star 0
  | '+' => .plain .plus 0
  | '-' => .plain .minus 0
  | '(' => if cs.head? == some '|' then .plain .lparenBar 1 else .plain .lparen 0
  | ')' => .plain .rparen 0
  | '|' => if cs.head? == some ')' then .plain .barRparen 1 else .skip
  | ',' => .plain .comma 0
  | '=' => .plain .equal 0
  | ':' => if cs.head? == some ':' then .plain .colonColon 1 else .plain .colon 0
  | '/' => .plain .slash 0
  | '$' => .plain .dollar 0
  | '%' => .plain .percent 0
  | '_' => .plain .underscore 0
  | '\'' | '"' => charConstant c cs
  | '.' => dot cs
  | 'B' | 'b' => radix .binaryConst isBinaryDigit depth c cs
  | 'O' | 'o' => radix .octalConst isOctalDigit depth c cs
  | 'Z' | 'z' => radix .hexConst isHexDigit depth c cs
  | 'F' | 'I' | 'E' | 'D' | 'P' | 'f' | 'i' | 'e' | 'd' | 'p' =>
    if cs.head?.any isDigit then edit depth c cs else word depth c cs
  | _ =>
    if isLetter c then word depth c cs
    else if isDigit c then number c cs
    else .skip

/-! ## The whole source -/

/-- The depth of parentheses after a token. It does not go below zero. -/
def depthAfter (depth : Nat) : Kind → Nat
  | .lparen | .lparenBar => depth + 1
  | .rparen | .barRparen => depth - 1
  | _ => depth

/-- A place in the source and the depth of parentheses there. -/
structure Place where
  line : Nat
  col : Nat
  depth : Nat

def Place.start : Place := ⟨1, 1, 0⟩

/-- The place after a piece. Only a line end leaves the line. -/
def Place.after (p : Place) (q : Piece) : Place :=
  match q.kind with
  | some .newline => ⟨p.line + 1, 1, p.depth⟩
  | some k => ⟨p.line, p.col + q.extra + 1, depthAfter p.depth k⟩
  | none => ⟨p.line, p.col + q.extra + 1, p.depth⟩

/-- The lexeme of a piece, if it is not skipped. -/
def lexeme? (p : Place) (q : Piece) (c : Char) (cs : List Char) : Option Lexeme :=
  q.kind.map fun k =>
    ⟨k, q.text.getD (String.ofList (c :: cs.take q.extra)), q.value, p.line, p.col⟩

/-- The lexemes from a place on, ended by the end of the source. -/
def lexemesFrom (p : Place) : List Char → List Lexeme
  | [] => [.endOfSource p.line p.col]
  | c :: cs =>
    let q := piece (p.col == 1) p.depth c cs
    let rest := lexemesFrom (p.after q) (cs.drop q.extra)
    match lexeme? p q c cs with
    | some lx => lx :: rest
    | none => rest
termination_by cs => cs.length
decreasing_by simp only [List.length_drop, List.length_cons]; omega

end FortranJulia.Scan

namespace FortranJulia

/-- The lexemes of a source. -/
def scan (source : String) : List Lexeme :=
  Scan.lexemesFrom .start source.toList

/-- The name of the main program: the first name that directly follows the word PROGRAM, or the
empty text. -/
def programName : List Lexeme → String
  | a :: b :: rest =>
    if a.kind == .keyword .PROGRAM && b.kind == .name then b.text else programName (b :: rest)
  | _ => ""

end FortranJulia
