import FortranJulia.Text.Printing

/-!
Three ways to write a text between quotes: with every character that does not print escaped, for
messages; as a Julia string literal; and as a FORTRAN character constant, in which the quote
itself is doubled.
-/

namespace FortranJulia.Text

set_option autoImplicit false

/-! ## Messages -/

/-- The lower-case hexadecimal digits of `n`, with zeros in front up to `width`. -/
def hexDigits (width n : Nat) : List Char :=
  let ds := Nat.toDigits 16 n
  List.replicate (width - ds.length) '0' ++ ds

/-- The escape of a character that does not print: a letter escape where there is one, else two,
four or eight hexadecimal digits. -/
def escapeCode (c : Char) : List Char :=
  match c.toNat with
  | 0x07 => ['\\', 'a']
  | 0x08 => ['\\', 'b']
  | 0x09 => ['\\', 't']
  | 0x0a => ['\\', 'n']
  | 0x0b => ['\\', 'v']
  | 0x0c => ['\\', 'f']
  | 0x0d => ['\\', 'r']
  | n =>
    if n < 0x80 then '\\' :: 'x' :: hexDigits 2 n
    else if n < 0x10000 then '\\' :: 'u' :: hexDigits 4 n
    else '\\' :: 'U' :: hexDigits 8 n

def escapeChar (c : Char) : List Char :=
  if c == '"' || c == '\\' then ['\\', c]
  else if isPrinting c then [c]
  else escapeCode c

/-- A text as messages quote it. -/
def quoted (s : String) : String :=
  String.ofList ('"' :: s.toList.flatMap escapeChar ++ ['"'])

/-! ## Julia string literals -/

def juliaChar (c : Char) : List Char :=
  if c == '"' || c == '\\' || c == '$' then ['\\', c]
  else if c == '\n' then ['\\', 'n']
  else if c == '\t' then ['\\', 't']
  else [c]

/-- A text as a Julia string literal: the delimiter, the escape and the interpolation character
are escaped, and so are line ends and tabs. -/
def juliaString (s : String) : String :=
  String.ofList ('"' :: s.toList.flatMap juliaChar ++ ['"'])

/-! ## FORTRAN character constants -/

/-- A text as a FORTRAN character constant: quotes inside are doubled. -/
def fortranConstant (s : String) : String :=
  String.ofList
    ('\'' :: s.toList.flatMap (fun c => if c == '\'' then ['\'', '\''] else [c]) ++ ['\''])

/-- Pairs of quotes as one quote each. -/
def undoubleQuotes : List Char → List Char
  | '\'' :: '\'' :: cs => '\'' :: undoubleQuotes cs
  | c :: cs => c :: undoubleQuotes cs
  | [] => []

/-- The text a FORTRAN character constant stands for. -/
def fortranText (s : String) : String :=
  String.ofList (undoubleQuotes ((s.toList.drop 1).dropLast))

end FortranJulia.Text
