import FortranJulia.Format.Item
import FortranJulia.Text.Case

/-!
Formats as Julia `@printf` strings. Numeric descriptors become conversions with width and
precision, texts stand for themselves, counts of blanks become blanks and a slash a line end.
Descriptors that only concern input, signs or scales produce nothing.
-/

namespace FortranJulia.Format

set_option autoImplicit false

/-! ## Descriptors -/

/-- A descriptor taken apart: its letters in upper case, its width (zero if there is none) and its
precision. -/
structure Descriptor where
  letters : String
  width : Nat
  precision : Option Nat
  deriving DecidableEq, Repr

namespace Descriptor

/-- The number of digits, at most the largest one of 64 bits. -/
def clamped (cs : List Char) : Nat :=
  min (Decimal.ofDigits cs) Decimal.maxInt

/-- Takes a descriptor apart. What stands before the first digit are its letters; a width of the
exponent cannot be expressed and is dropped. -/
def ofText (s : String) : Descriptor :=
  let cs := (Text.upper s).toList
  let letters := cs.takeWhile (!Decimal.isDigit ·)
  let rest := (cs.dropWhile (!Decimal.isDigit ·)).takeWhile (· != 'E')
  let width := rest.takeWhile (· != '.')
  let precision :=
    match rest.dropWhile (· != '.') with
    | _ :: ds => some (clamped ds)
    | [] => none
  ⟨String.ofList letters, clamped width, precision⟩

/-- A conversion to a letter with the width of the descriptor and, if asked for, its precision. -/
def conversion (d : Descriptor) (letter : String) (precise : Bool) : String :=
  let width := if d.width > 0 then Decimal.digits d.width else ""
  let precision :=
    match d.precision with
    | some p => if precise then "." ++ Decimal.digits p else ""
    | none => ""
  "%" ++ width ++ precision ++ letter

end Descriptor

/-- Why a format has no `@printf` string. -/
inductive EditError where
  | unsupported (letters : String)
  /-- More blanks than memory can hold. -/
  | tooManyBlanks
  deriving DecidableEq, Repr

namespace EditError

def message : EditError → String
  | .unsupported letters => "unsupported edit descriptor " ++ letters
  | .tooManyBlanks => "too many blanks"

end EditError

/-- The conversion of a descriptor, empty if it writes nothing. -/
def Descriptor.verb (d : Descriptor) : Except EditError String :=
  match d.letters with
  | "I" => .ok (d.conversion "d" false)
  | "F" => .ok (d.conversion "f" true)
  | "E" | "D" | "ES" | "EN" => .ok (d.conversion "e" true)
  | "G" => .ok (d.conversion "g" true)
  | "A" | "L" => .ok (d.conversion "s" false)
  | "P" | "BN" | "BZ" | "SP" | "SS" | "S" => .ok ""
  | letters => .error (.unsupported letters)

/-! ## Formats -/

/-- A `@printf` string, the number of values it takes and, if it is not complete, the reason. -/
structure Printed where
  text : String := ""
  values : Nat := 0
  error : Option EditError := none
  deriving DecidableEq, Repr

namespace Printed

/-- One after the other. What did not come to its end takes no values. -/
def andThen (a b : Printed) : Printed :=
  match a.error with
  | some e => ⟨a.text, 0, some e⟩
  | none => ⟨a.text ++ b.text, a.values + b.values, b.error⟩

def times (n : Nat) (a : Printed) : Printed :=
  match a.error with
  | some e => ⟨a.text, 0, some e⟩
  | none =>
    ⟨if a.text == "" then "" else String.join (List.replicate n a.text), n * a.values, none⟩

end Printed

/-- The largest number of blanks that can be written. -/
def maxBlanks : Nat := Nat.pow 2 48

/-- A text in which the conversion mark stands for itself. -/
def plainText (s : String) : String :=
  String.ofList (s.toList.flatMap fun c => if c == '%' then ['%', '%'] else [c])

def blanks (n : Nat) : Printed :=
  if n > maxBlanks then { error := some .tooManyBlanks }
  else { text := String.ofList (List.replicate n ' ') }

def printEdit (n : Nat) (descriptor : String) : Printed :=
  let d := Descriptor.ofText descriptor
  if d.letters == "X" then blanks (max (max n d.width) 1)
  else
    match d.verb with
    | .error e => { error := some e }
    | .ok "" => {}
    | .ok v => Printed.times (max n 1) { text := v, values := 1 }

mutual

def printItem : Item → Printed
  | .slash => { text := "\n" }
  | .text s => { text := plainText (Text.fortranText s) }
  | .edit n d => printEdit n d
  | .group n is => (printItems is).times (max n 1)
  | _ => {}

/-- The `@printf` string of a format. -/
def printItems : List Item → Printed
  | [] => {}
  | i :: is => (printItem i).andThen (printItems is)

end

end FortranJulia.Format
