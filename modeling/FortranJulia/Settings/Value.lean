/-!
Values in settings files: what a TOML or a YAML document assigns to its keys.
-/

namespace FortranJulia.Settings

set_option autoImplicit false

inductive Value where
  /-- A text that is nothing but a text. -/
  | text (s : String)
  | truth (b : Bool)
  | number
  /-- A scalar whose meaning depends on what it is read for, unless it is quoted. -/
  | scalar (quoted : Bool) (s : String)
  | list (items : List Value)
  | table (fields : List (String × Value))
  deriving Repr

/-- A value is not of the kind that its key asks for. -/
inductive Mismatch where
  | mismatch
  deriving DecidableEq, Repr

namespace Value

/-- The scalars that stand for no value. -/
def isNull (quoted : Bool) (s : String) : Bool :=
  !quoted && ["", "~", "null", "Null", "NULL"].contains s

/-- A value read as a text, if there is one. -/
def asText : Value → Except Mismatch (Option String)
  | .text s => .ok (some s)
  | .scalar quoted s => .ok (if isNull quoted s then none else some s)
  | _ => .error .mismatch

/-- The words that are read as true where a truth value is asked for, quoted or not. -/
def yesWords : List String :=
  ["y", "Y", "yes", "Yes", "YES", "on", "On", "ON"]

/-- The words that are read as false where a truth value is asked for, quoted or not. -/
def noWords : List String :=
  ["n", "N", "no", "No", "NO", "off", "Off", "OFF"]

/-- A value read as a truth value, if there is one. -/
def asTruth : Value → Except Mismatch (Option Bool)
  | .truth b => .ok (some b)
  | .scalar quoted s =>
    if isNull quoted s then .ok none
    else if !quoted && ["true", "True", "TRUE"].contains s then .ok (some true)
    else if !quoted && ["false", "False", "FALSE"].contains s then .ok (some false)
    else if yesWords.contains s then .ok (some true)
    else if noWords.contains s then .ok (some false)
    else .error .mismatch
  | _ => .error .mismatch

/-- The fields of a value; no value has none. -/
def asTable : Value → Except Mismatch (List (String × Value))
  | .table fs => .ok fs
  | .scalar quoted s => if isNull quoted s then .ok [] else .error .mismatch
  | _ => .error .mismatch

end Value

end FortranJulia.Settings
