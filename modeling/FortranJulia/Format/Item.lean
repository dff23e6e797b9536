import FortranJulia.Text.Quoted
import FortranJulia.Decimal.Reading

/-!
Format specifications: separators, texts, edit descriptors and groups, with optional counts of
repetitions, and the errors that reading one can meet.
-/

namespace FortranJulia.Format

set_option autoImplicit false

/-- One item of a format specification. A count of zero stands for no count. -/
inductive Item where
  | comma
  | colon
  | dollar
  | slash
  /-- A character constant with its quotes. -/
  | text (constant : String)
  /-- An edit descriptor as it is written. -/
  | edit (count : Nat) (descriptor : String)
  | group (count : Nat) (items : List Item)
  deriving Repr

/-- Why a specification is not a format. Places are line and column. -/
inductive ReadError where
  /-- No token starts here; the rest of the text is given. -/
  | invalidText (place : Nat × Nat) (rest : String)
  /-- A token does not fit here. -/
  | unexpected (place : Nat × Nat) (token : String) (expected : Option String)
  /-- A count of repetitions is not a number. -/
  | badCount (digits : String) (reason : Decimal.IntError)
  deriving DecidableEq, Repr

namespace ReadError

def placeText (p : Nat × Nat) : String :=
  Decimal.digits p.1 ++ ":" ++ Decimal.digits p.2 ++ ": "

/-- The first sixteen characters of a text, and dots if there are more. -/
def excerpt (s : String) : String :=
  if s.length > 16 then String.ofList (s.toList.take 16) ++ "..." else s

def reason : ReadError → String
  | .invalidText p rest => placeText p ++ "invalid input text " ++ Text.quoted (excerpt rest)
  | .unexpected p token expected =>
    placeText p ++ "unexpected token " ++ Text.quoted token ++
      (match expected with
       | some e => " (expected " ++ e ++ ")"
       | none => "")
  | .badCount ds r =>
    "FormatField.Repeat: strconv.ParseInt: parsing " ++ Text.quoted ds ++ ": " ++ r.text

/-- The reason, with the specification it is about. -/
def message (spec : String) (e : ReadError) : String :=
  "format (" ++ spec ++ "): " ++ e.reason

end ReadError

end FortranJulia.Format
