import FortranJulia.Text.Case

/-!
Types of names, and the rules that give a type to a name by its first letter. Rules are set for
ranges of letters or taken away for all of them; the last rule set for a letter counts.
-/

namespace FortranJulia

set_option autoImplicit false

/-! ## Types -/

/-- The types a declaration can give. -/
inductive TypeName where
  | integer | real | doublePrecision | complex | logical | character
  | other (name : String)
  deriving DecidableEq, Repr

namespace TypeName

def text : TypeName → String
  | .integer => "INTEGER"
  | .real => "REAL"
  | .doublePrecision => "DOUBLE PRECISION"
  | .complex => "COMPLEX"
  | .logical => "LOGICAL"
  | .character => "CHARACTER"
  | .other s => s

/-- The type with a name; there is none without a name. -/
def ofText? : String → Option TypeName
  | "" => none
  | "INTEGER" => some .integer
  | "REAL" => some .real
  | "DOUBLE PRECISION" => some .doublePrecision
  | "COMPLEX" => some .complex
  | "LOGICAL" => some .logical
  | "CHARACTER" => some .character
  | s => some (.other s)

/-- The name of a type, empty if there is none. -/
def textOf (t : Option TypeName) : String :=
  (t.map text).getD ""

end TypeName

/-! ## Implicit rules -/

/-- A letter from A to Z. -/
abbrev Letter := Fin 26

namespace Letter

/-- The letter of an upper-case character. -/
def ofUpper? (c : Char) : Option Letter :=
  if h : 'A'.toNat ≤ c.toNat ∧ c.toNat - 'A'.toNat < 26 then some ⟨c.toNat - 'A'.toNat, h.2⟩
  else none

end Letter

structure ImplicitRules where
  /-- Was the last rule that no letter has a type? -/
  isNone : Bool
  types : Letter → Option TypeName

/-- Why a range of letters is refused. -/
inductive RangeError where
  | notLetters (first last : Char)
  | reversed (first last : Char)
  deriving DecidableEq, Repr

namespace RangeError

def message : RangeError → String
  | .notLetters a b => "implicit range " ++ String.ofList [a, '-', b] ++ " is not a letter range"
  | .reversed a b => "implicit range " ++ String.ofList [a, '-', b] ++ " is reversed"

end RangeError

namespace ImplicitRules

/-- Without rules, names from I to N are integers and all others are reals. -/
def default : ImplicitRules where
  isNone := false
  types := fun l => if 8 ≤ l.val ∧ l.val ≤ 13 then some .integer else some .real

/-- No letter has a type. -/
def setNone : ImplicitRules :=
  ⟨true, fun _ => none⟩

/-- The letters of a range, in any case, get a type. -/
def setRange (r : ImplicitRules) (type : Option TypeName) (first last : Char) :
    Except RangeError ImplicitRules :=
  let a := Text.upperChar first
  let b := Text.upperChar last
  match Letter.ofUpper? a, Letter.ofUpper? b with
  | some i, some j =>
    if j < i then .error (.reversed a b)
    else .ok ⟨false, fun l => if i ≤ l ∧ l ≤ j then type else r.types l⟩
  | _, _ => .error (.notLetters a b)

/-- The type of a name by its first letter, which has to be an ASCII letter. -/
def typeOf (r : ImplicitRules) (name : String) : Option TypeName :=
  match name.toList with
  | [] => none
  | c :: _ => (Letter.ofUpper? c.toUpper).bind r.types

/-- The types of all letters in order. -/
def toList (r : ImplicitRules) : List (Option TypeName) :=
  (List.finRange 26).map r.types

end ImplicitRules

end FortranJulia
