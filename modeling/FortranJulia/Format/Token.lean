import FortranJulia.Format.Item

/-!
Tokens of a format specification. A specification is cut into tokens as a whole before it is read:
character constants, edit descriptors, numbers and marks; blanks and tabs between them are dropped.
-/

namespace FortranJulia.Format

set_option autoImplicit false

open Decimal (isDigit)

inductive TokenKind where
  | constant
  | descriptor
  | number
  | mark (c : Char)
  deriving DecidableEq, Repr

structure Token where
  kind : TokenKind
  text : String
  place : Nat × Nat
  deriving DecidableEq, Repr

namespace Token

/-! ## Lengths -/

/-- The length of a character constant after `taken` of its characters. A pair of quotes belongs to
the text if a closing quote follows later; otherwise the text ends at the first quote of the last
pair, which is `fallback` characters from the start. -/
def constantLength (fallback : Option Nat) (taken : Nat) : List Char → Option Nat
  | [] => fallback
  | '\'' :: '\'' :: cs => constantLength (some (taken + 1)) (taken + 2) cs
  | '\'' :: _ => some (taken + 1)
  | _ :: cs => constantLength fallback (taken + 1) cs

/-- The ASCII letter a character stands for in a descriptor, in upper case. The long s and the
kelvin sign count as letters. -/
def letterOf? (c : Char) : Option Char :=
  if 'A' ≤ c && c ≤ 'Z' then some c
  else if 'a' ≤ c && c ≤ 'z' then some c.toUpper
  else if c.toNat == 0x17f then some 'S'
  else if c.toNat == 0x212a then some 'K'
  else none

/-- The descriptors of two letters. -/
def pairs : List (Char × Char) :=
  [('T', 'L'), ('T', 'R'), ('B', 'N'), ('B', 'Z'), ('S', 'P'), ('S', 'S'), ('E', 'N'), ('E', 'S')]

/-- How many letters a descriptor starts with. -/
def letterCount : List Char → Nat
  | c :: cs =>
    match letterOf? c with
    | none => 0
    | some a =>
      match cs.head?.bind letterOf? with
      | some b => if pairs.contains (a, b) then 2 else 1
      | none => 1
  | [] => 0

def digitCount (cs : List Char) : Nat := (cs.takeWhile isDigit).length

/-- The length of a point with digits and an optional exponent width. -/
def fractionLength : List Char → Nat
  | '.' :: cs =>
    let n := digitCount cs
    if n == 0 then 0
    else
      match cs.drop n with
      | e :: ds =>
        if (e == 'E' || e == 'e') && digitCount ds > 0 then n + 2 + digitCount ds else n + 1
      | [] => n + 1
  | _ => 0

/-- The length of a descriptor, zero if none starts here. -/
def descriptorLength (cs : List Char) : Nat :=
  match letterCount cs with
  | 0 => 0
  | n =>
    let d := digitCount (cs.drop n)
    n + d + fractionLength (cs.drop (n + d))

def isMark (c : Char) : Bool :=
  c == '(' || c == ')' || c == ',' || c == '/' || c == ':' || c == '$'

def isGap (c : Char) : Bool :=
  c == ' ' || c == '\t'

/-! ## Cutting -/

/-- The place after some characters. -/
def advance (p : Nat × Nat) (cs : List Char) : Nat × Nat :=
  cs.foldl (fun p c => if c == '\n' then (p.1 + 1, 1) else (p.1, p.2 + 1)) p

/-- The kind and length of the token at the front; no kind for blanks. -/
def first? (cs : List Char) : Option (Option TokenKind × Nat) :=
  match cs with
  | [] => none
  | c :: rest =>
    match (if c == '\'' then constantLength none 1 rest else none) with
    | some n => some (some .constant, n)
    | none =>
      if descriptorLength cs > 0 then some (some .descriptor, descriptorLength cs)
      else if isDigit c then some (some .number, digitCount cs)
      else if isMark c then some (some (.mark c), 1)
      else if isGap c then some (none, (cs.takeWhile isGap).length)
      else none

/-- The tokens of the characters from a place on, and the place at their end. -/
def cutFrom (p : Nat × Nat) : List Char → Except ReadError (List Token × (Nat × Nat))
  | [] => .ok ([], p)
  | c :: cs =>
    match first? (c :: cs) with
    | none => .error (.invalidText p (String.ofList (c :: cs)))
    | some (kind, n) =>
      let taken := (c :: cs).take n
      match cutFrom (advance p taken) (cs.drop (n - 1)) with
      | .error e => .error e
      | .ok (rest, last) =>
        match kind with
        | some k => .ok (⟨k, String.ofList taken, p⟩ :: rest, last)
        | none => .ok (rest, last)
termination_by cs => cs.length
decreasing_by simp only [List.length_drop, List.length_cons]; omega

/-- The tokens of a specification and the place at its end. -/
def cut (spec : String) : Except ReadError (List Token × (Nat × Nat)) :=
  cutFrom (1, 1) spec.toList

end Token

end FortranJulia.Format
