import FortranJulia.Text.Blank

/-!
Documents made of headings, fenced code and paragraphs, in the usual plain-text markup: a heading
is a line with one to six hash signs in front, and a fence is a line of three or more backticks or
tildes, which ends at a line with as many of them.
-/

namespace FortranJulia.Golden

set_option autoImplicit false

/-- The parts of a document that say something; paragraphs are left out. Lines count from one. -/
inductive Block where
  | heading (line : Nat) (text : String)
  /-- Code with the word after the opening fence. The line is that of the first line of the code,
  or one if there is no code. -/
  | fence (line : Nat) (language : String) (code : String)
  deriving DecidableEq, Repr

/-! ## Lines -/

/-- The lines of a text with their ends. -/
def linesOf : List Char → List (List Char)
  | [] => []
  | c :: cs =>
    if c == '\n' then [c] :: linesOf cs
    else
      match linesOf cs with
      | [] => [[c]]
      | l :: ls => (c :: l) :: ls

def isSpace (c : Char) : Bool :=
  c == ' ' || c == '\t' || c == '\n' || c == '\r' || c == '\x0b' || c == '\x0c'

def trimmed (cs : List Char) : List Char :=
  Text.dropTrailing isSpace (cs.dropWhile isSpace)

/-- The number of blanks in front of a line. -/
def indentOf (line : List Char) : Nat :=
  (line.takeWhile (· == ' ')).length

/-! ## Headings -/

/-- The text of a heading without the hash signs that may close it. -/
def headingText (cs : List Char) : String :=
  let t := trimmed cs
  let body := Text.dropTrailing (· == '#') t
  String.ofList (if body.getLast?.all isSpace then trimmed body else t)

def heading? (line : List Char) : Option String :=
  if indentOf line > 3 then none
  else
    let body := line.dropWhile (· == ' ')
    let level := (body.takeWhile (· == '#')).length
    let rest := body.drop level
    if 1 ≤ level && level ≤ 6 && rest.head?.all isSpace then some (headingText rest) else none

/-! ## Fences -/

/-- A fence that has not been closed. -/
structure OpenFence where
  mark : Char
  length : Nat
  indent : Nat
  language : String
  /-- The line after the opening one. -/
  start : Nat
  /-- The lines of code so far, the last first. -/
  code : List (List Char)

/-- The fence mark: the backtick and the tilde. -/
def isFenceMark (c : Char) : Bool :=
  c == Char.ofNat 0x60 || c == '~'

/-- The first word after a fence. A lone character at the very end of a document is none. -/
def languageOf (info : List Char) : String :=
  if info.length ≤ 1 then "" else String.ofList ((trimmed info).takeWhile (· != ' '))

def openFence? (number : Nat) (line : List Char) : Option OpenFence :=
  let indent := indentOf line
  match line.drop indent with
  | [] => none
  | c :: cs =>
    let length := ((c :: cs).takeWhile (· == c)).length
    let info := (c :: cs).drop length
    if indent > 3 || !isFenceMark c || length < 3 || (c != '~' && info.contains c) then none
    else some ⟨c, length, indent, languageOf info, number + 1, []⟩

namespace OpenFence

def isClosedBy (f : OpenFence) (line : List Char) : Bool :=
  let body := line.dropWhile (· == ' ')
  let length := (body.takeWhile (· == f.mark)).length
  indentOf line ≤ 3 && length ≥ f.length && (body.drop length).all isSpace

/-- Code is moved to the left as far as its fence is indented. -/
def add (f : OpenFence) (line : List Char) : OpenFence :=
  { f with code := line.drop (min (indentOf line) f.indent) :: f.code }

/-- The last line of code ends like the others. -/
def terminated (line : List Char) : List Char :=
  if line.getLast? == some '\n' then line else line ++ ['\n']

def block (f : OpenFence) : Block :=
  let code := f.code.reverse.flatMap terminated
  .fence (if f.code.isEmpty then 1 else f.start) f.language (String.ofList code)

end OpenFence

/-! ## Documents -/

/-- The blocks of lines from a number on, with the fence that is open there. -/
def blocksFrom (number : Nat) : Option OpenFence → List (List Char) → List Block
  | none, [] => []
  | some f, [] => [f.block]
  | some f, l :: ls =>
    if f.isClosedBy l then f.block :: blocksFrom (number + 1) none ls
    else blocksFrom (number + 1) (some (f.add l)) ls
  | none, l :: ls =>
    match openFence? number l with
    | some f => blocksFrom (number + 1) (some f) ls
    | none =>
      match heading? l with
      | some t => .heading number t :: blocksFrom (number + 1) none ls
      | none => blocksFrom (number + 1) none ls

def blocks (document : String) : List Block :=
  blocksFrom 1 none (linesOf document.toList)

end FortranJulia.Golden
