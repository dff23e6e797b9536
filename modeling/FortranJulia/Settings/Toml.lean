import FortranJulia.Decimal.Reading
import FortranJulia.Settings.Value
import FortranJulia.Text.Blank

/-!
Reading of TOML documents with one assignment or table head on each line. Values are texts between
quotes, whole and decimal numbers, and truth values. What is not a document has no reading.
-/

namespace FortranJulia.Settings.Toml

set_option autoImplicit false

/-! ## Characters -/

def isSpace (c : Char) : Bool :=
  c == ' ' || c == '\t'

def skip (cs : List Char) : List Char :=
  cs.dropWhile isSpace

/-- Control characters, which no document may hold outside line ends; the tab is none. -/
def isControl (c : Char) : Bool :=
  (c.toNat < 0x20 && c != '\t') || c.toNat == 0x7f

/-- Is nothing left of a line but blanks and a comment? -/
def atEnd (cs : List Char) : Bool :=
  match skip cs with
  | [] => true
  | '#' :: rest => !rest.any isControl
  | _ => false

def hexValue? (c : Char) : Option Nat :=
  if c.isDigit then some (c.toNat - '0'.toNat)
  else if 'a' ≤ c && c ≤ 'f' then some (c.toNat - 'a'.toNat + 10)
  else if 'A' ≤ c && c ≤ 'F' then some (c.toNat - 'A'.toNat + 10)
  else none

/-- The character whose code the digits write. -/
def codePoint? (ds : List Char) : Option Char := do
  let n ← ds.foldlM (fun n c => (hexValue? c).map (16 * n + ·)) 0
  if n < 0xd800 || (0xdfff < n && n < 0x110000) then some (Char.ofNat n) else none

/-! ## Texts -/

/-- The characters of a text after its opening double quote, and what follows the closing one. -/
def basicText : Nat → List Char → Option (List Char × List Char)
  | 0, _ => none
  | fuel + 1, cs =>
    let next (c : Char) (rest : List Char) : Option (List Char × List Char) :=
      (basicText fuel rest).map fun (t, r) => (c :: t, r)
    match cs with
    | '"' :: rest => some ([], rest)
    | '\\' :: 'b' :: rest => next '\x08' rest
    | '\\' :: 't' :: rest => next '\t' rest
    | '\\' :: 'n' :: rest => next '\n' rest
    | '\\' :: 'f' :: rest => next '\x0c' rest
    | '\\' :: 'r' :: rest => next '\r' rest
    | '\\' :: '"' :: rest => next '"' rest
    | '\\' :: '\\' :: rest => next '\\' rest
    | '\\' :: 'u' :: rest =>
      if rest.length < 4 then none
      else (codePoint? (rest.take 4)).bind fun c => next c (rest.drop 4)
    | '\\' :: 'U' :: rest =>
      if rest.length < 8 then none
      else (codePoint? (rest.take 8)).bind fun c => next c (rest.drop 8)
    | '\\' :: _ => none
    | c :: rest => if isControl c then none else next c rest
    | [] => none

/-- The characters of a text after its opening single quote, and what follows the closing one. -/
def literalText (cs : List Char) : Option (List Char × List Char) :=
  let t := cs.takeWhile (· != '\'')
  match cs.drop t.length with
  | _ :: rest => if t.any isControl then none else some (t, rest)
  | [] => none

/-- A text between quotes of either kind. Texts of several lines are not read. -/
def quotedText (cs : List Char) : Option (String × List Char) :=
  match cs with
  | '"' :: '"' :: '"' :: _ => none
  | '\'' :: '\'' :: '\'' :: _ => none
  | '"' :: rest => (basicText (rest.length + 1) rest).map fun (t, r) => (String.ofList t, r)
  | '\'' :: rest => (literalText rest).map fun (t, r) => (String.ofList t, r)
  | _ => none

/-! ## Keys -/

def isBareKey (c : Char) : Bool :=
  c.isAlphanum || c == '_' || c == '-'

def keyPart (cs : List Char) : Option (String × List Char) :=
  match cs.takeWhile isBareKey with
  | [] => quotedText cs
  | name => some (String.ofList name, cs.drop name.length)

/-- Parts of a key with dots between them. -/
def key : Nat → List Char → Option (List String × List Char)
  | 0, _ => none
  | fuel + 1, cs => do
    let (part, rest) ← keyPart (skip cs)
    match skip rest with
    | '.' :: more =>
      let (parts, rest) ← key fuel more
      return (part :: parts, rest)
    | rest => return ([part], rest)

/-! ## Values -/

/-- Digits with single underscores between them. -/
def areDigits (p : Char → Bool) : List Char → Bool
  | [] => false
  | [c] => p c
  | c :: '_' :: rest => p c && areDigits p rest
  | c :: rest => p c && areDigits p rest

/-- Digits without a zero in front. -/
def isWhole (cs : List Char) : Bool :=
  areDigits Decimal.isDigit cs && (cs.length == 1 || cs.head? != some '0')

def isExponent (cs : List Char) : Bool :=
  match cs with
  | '+' :: ds | '-' :: ds => areDigits Decimal.isDigit ds
  | ds => areDigits Decimal.isDigit ds

/-- A whole number with a fraction, an exponent or both. -/
def isDecimal (cs : List Char) : Bool :=
  let isMark (c : Char) : Bool := c == '.' || c == 'e' || c == 'E'
  let whole := cs.takeWhile (!isMark ·)
  isWhole whole &&
    match cs.drop whole.length with
    | '.' :: rest =>
      let fraction := rest.takeWhile (!isMark ·)
      areDigits Decimal.isDigit fraction &&
        match rest.drop fraction.length with
        | [] => true
        | '.' :: _ => false
        | _ :: e => isExponent e
    | _ :: e => isExponent e
    | [] => false

/-- Digits of a base that write a number of 64 bits. -/
def isBased (base : Nat) (cs : List Char) : Bool :=
  let digit (c : Char) : Nat := (hexValue? c).getD 16
  areDigits (digit · < base) cs &&
    (cs.filter (· != '_')).foldl (fun n c => base * n + digit c) 0 ≤ Decimal.maxInt

/-- Is a word a number? Whole numbers have 64 bits. -/
def isNumber (word : List Char) : Bool :=
  let (sign, body) :=
    match word with
    | '+' :: ds => (['+'], ds)
    | '-' :: ds => (['-'], ds)
    | ds => ([], ds)
  if isWhole body then (Decimal.readInt (sign ++ body.filter (· != '_'))).toOption.isSome
  else if body == ['i', 'n', 'f'] || body == ['n', 'a', 'n'] then true
  else if isDecimal body then Decimal.real (body.filter (· != '_')) != .infinite
  else
    match sign, body with
    | [], '0' :: 'x' :: ds => isBased 16 ds
    | [], '0' :: 'o' :: ds => isBased 8 ds
    | [], '0' :: 'b' :: ds => isBased 2 ds
    | _, _ => false

def value (cs : List Char) : Option (Value × List Char) :=
  match quotedText cs with
  | some (s, rest) => some (.text s, rest)
  | none =>
    let word := cs.takeWhile fun c => !isSpace c && c != '#'
    let rest := cs.drop word.length
    if word == ['t', 'r', 'u', 'e'] then some (.truth true, rest)
    else if word == ['f', 'a', 'l', 's', 'e'] then some (.truth false, rest)
    else if isNumber word then some (.number, rest)
    else none

/-! ## Documents -/

/-- Puts a value under a key that has none yet. -/
def insert (fields : List (String × Value)) : List String → Value → Option (List (String × Value))
  | [], _ => none
  | [k], v => if (fields.lookup k).isSome then none else some (fields ++ [(k, v)])
  | k :: ks, v =>
    match fields.lookup k with
    | none => (insert [] ks v).map fun sub => fields ++ [(k, .table sub)]
    | some (.table sub) =>
      (insert sub ks v).map fun sub =>
        fields.map fun f => if f.1 == k then (k, .table sub) else f
    | some _ => none

structure Reading where
  fields : List (String × Value) := []
  /-- The table that the assignments at hand belong to. -/
  current : List String := []
  /-- The tables that have a head. -/
  heads : List (List String) := []

/-- Is there a table under a key already? -/
def hasTable (fields : List (String × Value)) : List String → Bool
  | [] => true
  | k :: ks =>
    match fields.lookup k with
    | some (.table sub) => hasTable sub ks
    | _ => false

/-- The head of a table. A table has one head and comes before what is inside it, unless a table
inside has made it. -/
def head (r : Reading) (name : List String) : Option Reading := do
  if r.heads.contains name then none
  let opened := r.heads.any fun h => name.isPrefixOf h && hasTable r.fields name
  let fields ← if opened then some r.fields else insert r.fields name (.table [])
  return { fields, current := name, heads := name :: r.heads }

def line (r : Reading) (cs : List Char) : Option Reading := do
  if atEnd cs then return r
  match skip cs with
  | '[' :: rest =>
    let (name, rest) ← key (rest.length + 1) rest
    match skip rest with
    | ']' :: rest => if atEnd rest then head r name else none
    | _ => none
  | cs =>
    let (name, rest) ← key (cs.length + 1) cs
    match skip rest with
    | '=' :: rest =>
      let (v, rest) ← value (skip rest)
      if atEnd rest then
        return { r with fields := ← insert r.fields (r.current ++ name) v }
      else none
    | _ => none

/-- A document without the byte order mark at its front. -/
def withoutMark (document : String) : String :=
  match document.toList with
  | c :: cs => if c.toNat == 0xfeff then String.ofList cs else document
  | [] => document

/-- A line without the carriage return of its end. -/
def withoutReturn (cs : List Char) : List Char :=
  if cs.getLast? == some '\r' then cs.dropLast else cs

/-- The fields of a document. -/
def read? (document : String) : Option (List (String × Value)) :=
  (((withoutMark document).splitOn "\n").foldlM (fun r s => line r (withoutReturn s.toList)) {}).map (·.fields)

end FortranJulia.Settings.Toml
