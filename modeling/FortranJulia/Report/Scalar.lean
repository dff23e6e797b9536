import FortranJulia.Report.Plain
import FortranJulia.Text.Quoted

/-!
Texts as YAML scalars. A text is written plainly where that reads back as the same text; else
between single quotes, as a block of lines, or between double quotes with escapes.
-/

namespace FortranJulia.Report

set_option autoImplicit false

/-! ## Characters -/

def isLineBreak (c : Char) : Bool :=
  [0x0a, 0x0d, 0x85, 0x2028, 0x2029].contains c.toNat

def isGap (c : Char) : Bool :=
  c == ' ' || c == '\t'

/-- The characters that a scalar without escapes may hold. -/
def isWritable (c : Char) : Bool :=
  let n := c.toNat
  n == 0x0a || (0x20 ≤ n && n ≤ 0x7e) || (0xa0 ≤ n && n ≤ 0xfffd && n != 0xfeff)

/-- Does a pair of neighbours satisfy a condition? -/
def anyPair (p : Char → Char → Bool) : List Char → Bool
  | a :: b :: rest => p a b || anyPair p (b :: rest)
  | _ => false

/-! ## Allowed forms -/

/-- Does a text start like something other than a plain scalar? -/
def startsWithIndicator (cs : List Char) : Bool :=
  let followed := (cs.drop 1).head?.all isGap
  cs.take 3 == ['-', '-', '-'] || cs.take 3 == ['.', '.', '.'] ||
    cs.head?.any fun c =>
      ['#', ',', '[', ']', '\x7b', '\x7d', '&', '*', '!', '|', '>', '\'', '"', '%', '@',
        Char.ofNat 0x60].contains c || (['?', ':', '-'].contains c && followed)

/-- Does a text hold a colon before a gap or a hash sign after one? -/
def holdsIndicator (cs : List Char) : Bool :=
  anyPair (fun a b => (a == ':' && isGap b) || ((isGap a || isLineBreak a) && b == '#')) cs ||
    cs.getLast? == some ':'

/-- Is there something that needs an escape? A blank before a line break would be lost. -/
def needsEscape (cs : List Char) : Bool :=
  anyPair (fun a b => a == ' ' && isLineBreak b) cs || cs.any fun c => c != '\t' && !isWritable c

def allowsQuotes (cs : List Char) : Bool :=
  !(needsEscape cs || cs.contains '\t' || anyPair (fun a b => isLineBreak a && b == ' ') cs)

def allowsPlain (cs : List Char) : Bool :=
  let edge (c : Option Char) : Bool := c.any fun c => c == ' ' || isLineBreak c
  allowsQuotes cs && !(edge cs.head? || edge cs.getLast? || cs.any isLineBreak ||
    startsWithIndicator cs || holdsIndicator cs)

def allowsBlock (cs : List Char) : Bool :=
  !(needsEscape cs || cs.getLast? == some ' ')

/-! ## Written forms -/

/-- The lines of a text at a depth; empty ones stay empty. -/
def indented (depth : Nat) : Bool → List Char → List Char
  | _, [] => []
  | fresh, c :: cs =>
    if isLineBreak c then c :: indented depth true cs
    else if fresh then List.replicate depth ' ' ++ c :: indented depth false cs
    else c :: indented depth false cs

/-- A text between single quotes, with the quotes in it doubled. -/
def singleQuotes (depth : Nat) (cs : List Char) : String :=
  let doubled := cs.flatMap fun c => if c == '\'' then ['\'', '\''] else [c]
  String.ofList ('\'' :: indented depth false doubled ++ ['\''])

/-- The escape of a character. -/
def escaped (c : Char) : List Char :=
  let code (mark : Char) (width : Nat) : List Char :=
    '\\' :: mark :: (Text.hexDigits width c.toNat).map Char.toUpper
  match c.toNat with
  | 0x00 => ['\\', '0']
  | 0x07 => ['\\', 'a']
  | 0x08 => ['\\', 'b']
  | 0x09 => ['\\', 't']
  | 0x0a => ['\\', 'n']
  | 0x0b => ['\\', 'v']
  | 0x0c => ['\\', 'f']
  | 0x0d => ['\\', 'r']
  | 0x1b => ['\\', 'e']
  | 0x22 => ['\\', '"']
  | 0x5c => ['\\', '\\']
  | 0x85 => ['\\', 'N']
  | 0xa0 => ['\\', '_']
  | 0x2028 => ['\\', 'L']
  | 0x2029 => ['\\', 'P']
  | n => if n ≤ 0xff then code 'x' 2 else if n ≤ 0xffff then code 'u' 4 else code 'U' 8

/-- A text between double quotes, with escapes where they are needed. In a text that starts with a
byte order mark every character is escaped. -/
def doubleQuotes (cs : List Char) : String :=
  let marked := cs.head?.any (·.toNat == 0xfeff)
  let char (c : Char) : List Char :=
    if !marked && isWritable c && !isLineBreak c && c != '"' && c != '\\' then [c]
    else escaped c
  String.ofList ('"' :: cs.flatMap char ++ ['"'])

/-- How a block ends: without a line break, with one, or with more. -/
def chomping (cs : List Char) : String :=
  match cs.reverse with
  | [] => "-"
  | [c] => if isLineBreak c then "+" else "-"
  | c :: d :: _ => if !isLineBreak c then "-" else if isLineBreak d then "+" else ""

/-- A block of lines at a depth. A line break at the front of the text also ends the head of the
block. -/
def blockLines (depth : Nat) (cs : List Char) : String :=
  let hint := if cs.head?.any fun c => c == ' ' || isLineBreak c then "4" else ""
  let headEnd := if cs.head?.any isLineBreak then "" else "\n"
  "|" ++ hint ++ chomping cs ++ headEnd ++ String.ofList (indented depth true cs)

/-- A text as a scalar; the depth is that of its lines after the first. -/
def scalar (depth : Nat) (s : String) : String :=
  let cs := s.toList
  if cs.contains '\n' then if allowsBlock cs then blockLines depth cs else doubleQuotes cs
  else if !readsAsText s then doubleQuotes cs
  else if allowsPlain cs then s
  else if allowsQuotes cs then singleQuotes depth cs
  else doubleQuotes cs

/-- A scalar as the last on its line. A block that ends with a line break needs no other. -/
def endLine (written : String) : String :=
  if written.toList.getLast?.any isLineBreak then written else written ++ "\n"

end FortranJulia.Report
