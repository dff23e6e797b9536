import FortranJulia.Format.Token

/-!
Reading of format specifications. Items are read as long as they match. When one does not, the
reading goes on behind the last item that did, unless the failure lies further than one token
ahead; what is reported in the end is the failure that lies deepest in the text.
-/

namespace FortranJulia.Format

set_option autoImplicit false

/-! ## Failures -/

/-- A token that did not match, by index, and what was expected in its place. -/
structure Failure where
  index : Nat
  expected : Option String
  deriving DecidableEq, Repr

/-- A position among the tokens and the deepest failure met on the way. -/
structure Cursor where
  pos : Nat := 0
  depth : Nat := 0
  deepest : Option Failure := none
  deriving DecidableEq, Repr

namespace Cursor

def step (c : Cursor) : Cursor := { c with pos := c.pos + 1 }

/-- The failure at the position. -/
def failure (c : Cursor) (expected : Option String) : Failure := ⟨c.pos, expected⟩

/-- Goes on from where a branch ended. -/
def accept (c b : Cursor) : Cursor :=
  if b.depth ≥ c.depth then b else { c with pos := b.pos }

/-- Notes a failure unless a deeper one is known. -/
def note (c : Cursor) (e : Failure) : Cursor :=
  if c.pos ≥ c.depth then { c with depth := c.pos, deepest := some e } else c

/-- Ends a branch that failed. The answer is whether it got more than one token ahead, in which
case the failure is final. -/
def stop (c : Cursor) (e : Failure) (b : Cursor) : Bool × Cursor :=
  let d :=
    if b.depth > c.depth then { c with depth := b.depth, deepest := b.deepest }
    else if b.pos ≥ c.depth then { c with depth := max b.pos b.depth, deepest := some e }
    else c
  if b.pos > c.pos + 1 then (true, d.accept b) else (false, d)

end Cursor

/-- What an attempt to read something gives. -/
inductive Reading (α : Type) where
  | matched (value : α)
  | failed (failure : Failure)
  /-- An error that ends everything. -/
  | refused (error : ReadError)

/-! ## Counts -/

/-- Adds digits to a number in a base below ten. Numbers of more than 64 bits are found out before
the digits behind. -/
def addDigits (base : Nat) (n : Nat) : List Char → Except Decimal.IntError Nat
  | [] => if n > Decimal.maxInt then .error .outOfRange else .ok n
  | c :: cs =>
    let d := c.toNat - '0'.toNat
    if d ≥ base then .error .malformed
    else if n * base + d ≥ Nat.pow 2 64 then .error .outOfRange
    else addDigits base (n * base + d) cs

/-- The number written by digits; a zero in front of others marks octal digits. -/
def count (digits : String) : Except Decimal.IntError Nat :=
  match digits.toList with
  | '0' :: d :: ds => addDigits 8 0 (d :: ds)
  | ds => addDigits 10 0 ds

/-! ## Items -/

/-- Reads a descriptor or a group in parentheses, without a count and with the given way to read
items. -/
def readBody (tokens : Array Token) (items : Cursor → Reading (List Item) × Cursor)
    (c : Cursor) : Option (Reading Item × Cursor) :=
  match tokens[c.pos]? with
  | some ⟨.mark '(', _, _⟩ =>
    let give (e : Failure) (b : Cursor) : Reading Item × Cursor :=
      let (final, d) := c.stop e b
      let d := if final then d else d.note e
      (.failed e, d.note e)
    match items c.step with
    | (.matched is, b) =>
      if (tokens[b.pos]?).any (·.kind == .mark ')') then
        some (.matched (.group 0 is), c.accept b.step)
      else some (give (b.failure (some "\")\"")) b)
    | (.failed e, b) => some (give e b)
    | (.refused e, b) => some (.refused e, b)
  | some ⟨.descriptor, text, _⟩ => some (.matched (.edit 0 text), c.step)
  | _ => none

/-- Puts a count of repetitions on an item. -/
def repeated (n : Nat) : Item → Item
  | .edit _ d => .edit n d
  | .group _ is => .group n is
  | i => i

/-- Reads an optional count and what it repeats. The count is converted last. -/
def readField (tokens : Array Token) (items : Cursor → Reading (List Item) × Cursor) (c : Cursor) :
    Reading Item × Cursor :=
  let digits? :=
    match tokens[c.pos]? with
    | some ⟨.number, text, _⟩ => some text
    | _ => none
  let c := if digits?.isSome then c.step else c
  match readBody tokens items c with
  | none =>
    let e := c.failure (some "FormatFieldBody")
    (.failed e, c.note e)
  | some (.failed e, b) => (.failed e, b.note e)
  | some (.refused e, b) => (.refused e, b)
  | some (.matched i, b) =>
    match digits? with
    | none => (.matched i, b)
    | some ds =>
      match count ds with
      | .ok n => (.matched (repeated n i), b)
      | .error r => (.refused (.badCount ds r), b)

/-- The item a single token stands for. -/
def simpleItem? (t : Token) : Option Item :=
  match t.kind with
  | .mark ',' => some .comma
  | .mark ':' => some .colon
  | .mark '$' => some .dollar
  | .mark '/' => some .slash
  | .constant => some (.text t.text)
  | _ => none

def readItem (tokens : Array Token) (items : Cursor → Reading (List Item) × Cursor) (c : Cursor) :
    Reading Item × Cursor :=
  match (tokens[c.pos]?).bind simpleItem? with
  | some i => (.matched i, c.step)
  | none =>
    match readField tokens items c with
    | (.matched i, b) => (.matched i, c.accept b)
    | (.failed e, b) =>
      let (final, d) := c.stop e b
      let d := if final then d else d.note e
      (.failed e, d.note e)
    | (.refused e, b) => (.refused e, b)

/-- Reads items while they match. Every step takes a token, so the number of tokens bounds the
steps. -/
def readItems (tokens : Array Token) : Nat → Cursor → Reading (List Item) × Cursor
  | 0, c => (.matched [], c)
  | bound + 1, c =>
    match readItem tokens (readItems tokens bound) c with
    | (.matched i, b) =>
      match readItems tokens bound (c.accept b) with
      | (.matched is, d) => (.matched (i :: is), d)
      | r => r
    | (.failed e, b) =>
      let (final, d) := (c.note e).stop e b
      if final then (.failed e, d.note e) else (.matched [], d)
    | (.refused e, b) => (.refused e, b)

/-- The error of a failure. -/
def Failure.error (f : Failure) (tokens : Array Token) (last : Nat × Nat) : ReadError :=
  match tokens[f.index]? with
  | some t => .unexpected t.place t.text f.expected
  | none => .unexpected last "<EOF>" f.expected

/-- Reads a format specification: the text between the outer parentheses of a FORMAT statement. -/
def read (spec : String) : Except ReadError (List Item) :=
  match Token.cut spec with
  | .error e => .error e
  | .ok (tokens, last) =>
    let tokens := tokens.toArray
    match readItems tokens (tokens.size + 2) {} with
    | (.refused e, _) => .error e
    | (.failed f, _) => .error (f.error tokens last)
    | (.matched items, c) =>
      if c.pos < tokens.size then
        match c.deepest with
        | some f =>
          if c.pos < c.depth then .error (f.error tokens last)
          else .error ((c.failure none).error tokens last)
        | none => .error ((c.failure none).error tokens last)
      else .ok items

end FortranJulia.Format
