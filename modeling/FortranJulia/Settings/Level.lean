import FortranJulia.Decimal.Reading
import FortranJulia.Text.Case
import FortranJulia.Text.Quoted

/-!
Levels of messages: four names at distances of four, and every whole number between and beyond
them, written as the nearest name at or below it and the distance.
-/

namespace FortranJulia

set_option autoImplicit false

structure Level where
  value : Int
  deriving DecidableEq, Repr

inductive LevelError where
  /-- What follows the name is not a whole number. -/
  | offset (level digits : String) (reason : Decimal.IntError)
  | unknownName (level : String)
  deriving DecidableEq, Repr

namespace LevelError

def level : LevelError → String
  | .offset l _ _ => l
  | .unknownName l => l

def reason : LevelError → String
  | .offset _ ds r => "strconv.Atoi: parsing " ++ Text.quoted ds ++ ": " ++ r.text
  | .unknownName _ => "unknown name"

def message (e : LevelError) : String :=
  "invalid log level " ++ Text.quoted e.level ++ ": slog: level string " ++ Text.quoted e.level ++
    ": " ++ e.reason

end LevelError

namespace Level

/-- The names with their values, the highest first. -/
def names : List (String × Int) :=
  [("ERROR", 8), ("WARN", 4), ("INFO", 0), ("DEBUG", -4)]

def isSign (c : Char) : Bool :=
  c == '+' || c == '-'

/-- The level a text names: a name in any letter case and, from the first sign on, a distance from
it. A faulty distance is found before an unknown name. -/
def read (s : String) : Except LevelError Level := do
  let name := String.ofList (s.toList.takeWhile (!isSign ·))
  let rest := s.toList.dropWhile (!isSign ·)
  let offset ←
    if rest == [] then pure 0
    else (Decimal.readInt rest).mapError (.offset s (String.ofList rest))
  match names.lookup (Text.upper name) with
  | none => throw (.unknownName s)
  | some v => return ⟨Decimal.wrap (v + offset)⟩

/-- The nearest name at or below a level, or the lowest. -/
def nearest (l : Level) : String × Int :=
  (names.find? (·.2 ≤ l.value)).getD ("DEBUG", -4)

def text (l : Level) : String :=
  let (name, v) := l.nearest
  let d := l.value - v
  if d == 0 then name else name ++ (if d > 0 then "+" else "") ++ Decimal.ofInt d

end Level

end FortranJulia
