import FortranJulia.Settings.Toml

/-!
Reading of YAML documents made of block mappings, block sequences and scalars: plain ones, also
over several lines, and quoted ones on one line. What is not such a document has no reading.
-/

namespace FortranJulia.Settings.Yaml

set_option autoImplicit false

open Toml (isSpace skip codePoint? withoutMark withoutReturn)

/-! ## Lines -/

/-- A line that holds something, with the number of blanks before it. -/
structure Line where
  indent : Nat
  content : List Char
  deriving Repr

def isBlankLine (cs : List Char) : Bool :=
  match skip cs with
  | [] | '#' :: _ => true
  | _ => false

/-- The line of a text; a tab cannot indent one. -/
def lineOf? (cs : List Char) : Option Line :=
  let content := cs.dropWhile (· == ' ')
  if content.head? == some '\t' then none
  else some ⟨cs.length - content.length, Text.dropTrailing isSpace content⟩

/-- Is a line the mark between documents? -/
def isMark (cs : List Char) : Bool :=
  let head := cs.take 3
  (head == ['-', '-', '-'] || head == ['.', '.', '.']) && (cs.drop 3).head?.all isSpace

/-- The lines of the first document of a text. -/
def lines? (text : String) : Option (List Line) :=
  let all := (text.splitOn "\n").map fun s => withoutReturn s.toList
  let body := all.dropWhile fun cs => isBlankLine cs || cs == ['-', '-', '-']
  ((body.takeWhile (!isMark ·)).filter (!isBlankLine ·)).mapM lineOf?

/-! ## Scalars -/

/-- The character of a one-letter escape. -/
def escape? : Char → Option Char
  | '0' => some '\x00'
  | 'a' => some '\x07'
  | 'b' => some '\x08'
  | 't' => some '\t'
  | 'n' => some '\n'
  | 'v' => some '\x0b'
  | 'f' => some '\x0c'
  | 'r' => some '\r'
  | 'e' => some '\x1b'
  | ' ' => some ' '
  | '"' => some '"'
  | '/' => some '/'
  | '\\' => some '\\'
  | 'N' => some (Char.ofNat 0x85)
  | '_' => some (Char.ofNat 0xa0)
  | 'L' => some (Char.ofNat 0x2028)
  | 'P' => some (Char.ofNat 0x2029)
  | _ => none

/-- The number of digits of an escape by code. -/
def escapeWidth? : Char → Option Nat
  | 'x' => some 2
  | 'u' => some 4
  | 'U' => some 8
  | _ => none

/-- The characters after an opening double quote, and what follows the closing one. -/
def doubleQuoted : Nat → List Char → Option (List Char × List Char)
  | 0, _ => none
  | fuel + 1, cs =>
    let next (c : Char) (rest : List Char) : Option (List Char × List Char) :=
      (doubleQuoted fuel rest).map fun (t, r) => (c :: t, r)
    match cs with
    | '"' :: rest => some ([], rest)
    | '\\' :: e :: rest =>
      match escape? e, escapeWidth? e with
      | some c, _ => next c rest
      | none, some n =>
        if rest.length < n then none
        else (codePoint? (rest.take n)).bind fun c => next c (rest.drop n)
      | none, none => none
    | ['\\'] => none
    | c :: rest => next c rest
    | [] => none

/-- The characters after an opening single quote, where a doubled quote stands for one, and what
follows the closing one. -/
def singleQuoted : List Char → Option (List Char × List Char)
  | '\'' :: '\'' :: rest => (singleQuoted rest).map fun (t, r) => ('\'' :: t, r)
  | '\'' :: rest => some ([], rest)
  | c :: rest => (singleQuoted rest).map fun (t, r) => (c :: t, r)
  | [] => none

def quoted? (cs : List Char) : Option (String × List Char) :=
  match cs with
  | '"' :: rest => (doubleQuoted (rest.length + 1) rest).map fun (t, r) => (String.ofList t, r)
  | '\'' :: rest => (singleQuoted rest).map fun (t, r) => (String.ofList t, r)
  | _ => none

/-- What comes before a comment. -/
def uncommented : List Char → List Char
  | [] => []
  | c :: rest =>
    if isSpace c && rest.head? == some '#' then [] else c :: uncommented rest

/-- Splits at the first colon that a blank or the end of the line follows. -/
def atColon : List Char → Option (List Char × List Char)
  | [] => none
  | c :: rest =>
    if c == ':' && rest.head?.all isSpace then some ([], rest)
    else (atColon rest).map fun (k, r) => (c :: k, r)

/-- Can a plain scalar start like this? -/
def startsPlain : List Char → Bool
  | [] => true
  | c :: rest =>
    if ['-', '?', ':'].contains c then rest.head?.any (!isSpace ·)
    else !([',', '[', ']', '\x7b', '\x7d', '#', '&', '*', '!', '|', '>', '\'', '"', '%', '@',
      Char.ofNat 0x60].contains c)

/-- The text of a plain scalar on one line. -/
def plain? (cs : List Char) : Option (List Char) :=
  let t := Text.dropTrailing isSpace (uncommented cs)
  if startsPlain t && (atColon t).isNone then some t else none

/-- The key of a line of a mapping, and what follows the colon. -/
def key? (cs : List Char) : Option (String × List Char) :=
  match quoted? cs with
  | some (k, rest) =>
    match skip rest with
    | ':' :: rest => if rest.head?.all isSpace then some (k, rest) else none
    | _ => none
  | none =>
    match atColon (uncommented cs) with
    | some (k, _) =>
      if startsPlain k && k != [] then
        some (String.ofList (Text.dropTrailing isSpace k), cs.drop (k.length + 1))
      else none
    | none => none

def isItem (cs : List Char) : Bool :=
  match cs with
  | '-' :: rest => rest.head?.all isSpace
  | _ => false

/-! ## Blocks -/

/-- A scalar that starts on a line; the lines indented beyond `indent` go on with it, if it is
plain. -/
def scalar (indent : Nat) (cs : List Char) (rest : List Line) : Option (Value × List Line) :=
  match cs with
  | '"' :: _ | '\'' :: _ => do
    let (s, after) ← quoted? cs
    if isBlankLine after && (after == [] || after.head?.any isSpace) then
      return (.scalar true s, rest)
    else none
  | _ => do
    let first ← plain? cs
    let more := rest.takeWhile (·.indent > indent)
    let parts ← more.mapM fun l => plain? l.content
    let words := (first :: parts).map String.ofList
    return (.scalar false (" ".intercalate words), rest.drop more.length)

/-- No value. -/
def null : Value := .scalar false ""

mutual

/-- The value that starts at the first of some lines. Each step takes a line or goes into it, so
that there are at most two steps for each character. -/
def block : Nat → List Line → Option (Value × List Line)
  | 0, _ => none
  | _ + 1, [] => some (null, [])
  | fuel + 1, l :: rest =>
    if isItem l.content then
      (items fuel l.indent (l :: rest)).map fun (vs, r) => (.list vs, r)
    else if (key? l.content).isSome then
      (mapping fuel l.indent [] (l :: rest)).map fun (fs, r) => (.table fs, r)
    else scalar l.indent l.content rest

/-- The items of a sequence at a depth. -/
def items : Nat → Nat → List Line → Option (List Value × List Line)
  | 0, _, _ => none
  | _ + 1, _, [] => some ([], [])
  | fuel + 1, indent, l :: rest =>
    if l.indent < indent || (l.indent == indent && !isItem l.content) then some ([], l :: rest)
    else if l.indent > indent then none
    else do
      let body := skip (l.content.drop 1)
      let deeper := indent + (l.content.length - body.length)
      let (v, rest) ←
        if isBlankLine body then
          match rest with
          | n :: _ => if n.indent > indent then block fuel rest else some (null, rest)
          | [] => some (null, rest)
        else block fuel (⟨deeper, body⟩ :: rest)
      let (vs, rest) ← items fuel indent rest
      return (v :: vs, rest)

/-- The fields of a mapping at a depth, of which some keys are taken. -/
def mapping : Nat → Nat → List String → List Line → Option (List (String × Value) × List Line)
  | 0, _, _, _ => none
  | _ + 1, _, _, [] => some ([], [])
  | fuel + 1, indent, taken, l :: rest =>
    if l.indent < indent then some ([], l :: rest)
    else if l.indent > indent then none
    else do
      let (k, after) ← key? l.content
      if taken.contains k then none
      let text := skip after
      let (v, rest) ←
        if isBlankLine text then
          match rest with
          | n :: _ =>
            if n.indent > indent then block fuel rest
            else if n.indent == indent && isItem n.content then
              (items fuel indent rest).map fun (vs, r) => (.list vs, r)
            else some (null, rest)
          | [] => some (null, rest)
        else scalar indent text rest
      let (fs, rest) ← mapping fuel indent (k :: taken) rest
      return ((k, v) :: fs, rest)

end

/-- The characters that a document may hold. -/
def isAllowed (c : Char) : Bool :=
  let n := c.toNat
  n == 0x09 || n == 0x0a || n == 0x0d || n == 0x85 || (0x20 ≤ n && n ≤ 0x7e) ||
    (0xa0 ≤ n && n != 0xfffe && n != 0xffff)

/-- The value of a document. -/
def read? (document : String) : Option Value := do
  let document := withoutMark document
  guard (document.toList.all isAllowed)
  let ls ← lines? document
  match ← block (2 * document.length + 2) ls with
  | (v, []) => some v
  | _ => none

end FortranJulia.Settings.Yaml
