import FortranJulia.Decimal.Reading

/-!
Plain YAML scalars that are read as something other than a text: no value, truth values, numbers
and times. A text of such a form has to be quoted.
-/

namespace FortranJulia.Report

set_option autoImplicit false

/-- The scalars that stand for no value, a truth value or a number, or did so once. -/
def reservedScalars : List String :=
  ["", "~", "null", "Null", "NULL", "true", "True", "TRUE", "false", "False", "FALSE",
   ".nan", ".NaN", ".NAN", ".inf", ".Inf", ".INF", "+.inf", "+.Inf", "+.INF", "-.inf", "-.Inf",
   "-.INF", "y", "Y", "yes", "Yes", "YES", "on", "On", "ON", "n", "N", "no", "No", "NO", "off",
   "Off", "OFF"]

/-! ## Whole numbers -/

def areDigits (cs : List Char) : Bool :=
  !cs.isEmpty && cs.all Decimal.isDigit

/-- The sign in front of a number, if it has one, and the number without it. -/
def splitSign : List Char → Option Char × List Char
  | '+' :: cs => (some '+', cs)
  | '-' :: cs => (some '-', cs)
  | cs => (none, cs)

/-- The value of a digit, in the bases up to sixteen. -/
def digitValue (c : Char) : Nat :=
  if Decimal.isDigit c then c.toNat - '0'.toNat
  else if 'a' ≤ c && c ≤ 'f' then c.toNat - 'a'.toNat + 10
  else if 'A' ≤ c && c ≤ 'F' then c.toNat - 'A'.toNat + 10
  else 16

/-- The number that digits of a base write. -/
def inBase (base : Nat) (cs : List Char) : Option Nat :=
  if cs.all (digitValue · < base) then
    some (cs.foldl (fun n c => base * n + digitValue c) 0)
  else none

/-- Does a number with a sign, or with none, fit in 64 bits? -/
def fits (sign : Option Char) (n : Nat) : Bool :=
  match sign with
  | none => n < Nat.pow 2 64
  | some '-' => n ≤ Nat.pow 2 63
  | some _ => n < Nat.pow 2 63

/-- The base that the front of a number marks, and its digits. A zero in front marks octal. -/
def markedBase (cs : List Char) : Nat × List Char :=
  match cs with
  | '0' :: m :: d :: ds =>
    if m == 'b' || m == 'B' then (2, d :: ds)
    else if m == 'o' || m == 'O' then (8, d :: ds)
    else if m == 'x' || m == 'X' then (16, d :: ds)
    else (8, m :: d :: ds)
  | '0' :: ds => (8, ds)
  | ds => (10, ds)

/-- Whole numbers of 64 bits, in the base they mark. -/
def isWhole (cs : List Char) : Bool :=
  let (sign, body) := splitSign cs
  let (base, digits) := markedBase body
  !body.isEmpty && (inBase base digits).any (fits sign)

/-- Binary and octal numbers with a sign after the mark of their base. -/
def isSignedInside (cs : List Char) : Bool :=
  let holds (base : Nat) (cs : List Char) : Bool :=
    let (sign, digits) := splitSign cs
    !digits.isEmpty && (inBase base digits).any (fits sign)
  match cs with
  | '0' :: 'b' :: ds => holds 2 ds
  | '0' :: 'o' :: ds => holds 8 ds
  | _ => false

/-! ## Decimal numbers -/

/-- An exponent, or nothing. -/
def isExponent (cs : List Char) : Bool :=
  match cs with
  | [] => true
  | 'e' :: ds | 'E' :: ds => areDigits (splitSign ds).2
  | _ => false

/-- Digits with a point among, before or after them, and an exponent. -/
def isDecimal (cs : List Char) : Bool :=
  let whole := cs.takeWhile Decimal.isDigit
  match cs.drop whole.length with
  | '.' :: rest =>
    let fraction := rest.takeWhile Decimal.isDigit
    !(whole.isEmpty && fraction.isEmpty) && isExponent (rest.drop fraction.length)
  | rest => !whole.isEmpty && isExponent rest

/-- Decimal numbers that are not too large for a floating-point value. -/
def isReal (cs : List Char) : Bool :=
  let body := (splitSign cs).2
  isDecimal body && Decimal.real body != .infinite

def dropUnderscores (cs : List Char) : List Char :=
  cs.filter (· != '_')

/-- Does every underscore stand between two digits? -/
def underscoresSeparate : Char → List Char → Bool
  | _, [] => true
  | before, '_' :: after :: cs =>
    Decimal.isDigit before && Decimal.isDigit after && underscoresSeparate after cs
  | _, ['_'] => false
  | _, c :: cs => underscoresSeparate c cs

/-- Digits in groups of sixty with colons between them. -/
def isSexagesimal (cs : List Char) : Bool :=
  let body := (splitSign cs).2
  let group (g : List Char) : Bool :=
    areDigits g && g.length ≤ 2 && (g.length == 1 || g.head?.any (· ≤ '5'))
  match (String.ofList body).splitOn ":" with
  | first :: second :: more =>
    let last := (second :: more).getLast?.getD ""
    let seconds := last.toList.takeWhile (· != '.')
    body.head?.any Decimal.isDigit &&
      first.toList.all (fun c => Decimal.isDigit c || c == '_') &&
      (second :: more).dropLast.all (fun s => group s.toList) && group seconds &&
      (last.toList.drop (seconds.length + 1)).all fun c => Decimal.isDigit c || c == '_'
  | _ => false

/-! ## Times -/

/-- A number of one or two digits and what follows it. -/
def shortNumber? : List Char → Option (Nat × List Char)
  | a :: b :: cs =>
    if !Decimal.isDigit a then none
    else if Decimal.isDigit b then some (Decimal.ofDigits [a, b], cs)
    else some (Decimal.ofDigits [a], b :: cs)
  | [a] => if Decimal.isDigit a then some (Decimal.ofDigits [a], []) else none
  | [] => none

/-- What follows a mark. -/
def after? (mark : Char) : List Char → Option (List Char)
  | c :: cs => if c == mark then some cs else none
  | [] => none

def daysOf (year month : Nat) : Nat :=
  if month == 2 then
    if year % 4 == 0 && (year % 100 != 0 || year % 400 == 0) then 29 else 28
  else if [4, 6, 9, 11].contains month then 30
  else 31

/-- What follows a day of the calendar: the year with four digits, the month and the day. -/
def afterDate? (cs : List Char) : Option (List Char) := do
  let year := cs.take 4
  guard (areDigits year && year.length == 4)
  let (month, rest) ← (after? '-' (cs.drop 4)).bind shortNumber?
  let (day, rest) ← (after? '-' rest).bind shortNumber?
  guard (1 ≤ month && month ≤ 12 && 1 ≤ day && day ≤ daysOf (Decimal.ofDigits year) month)
  return rest

/-- What follows a fraction of a second, if there is one. -/
def afterFraction (cs : List Char) : List Char :=
  match cs with
  | mark :: d :: ds =>
    if (mark == '.' || mark == ',') && Decimal.isDigit d then ds.dropWhile Decimal.isDigit else cs
  | _ => cs

/-- What follows a time of the day: hours, minutes and seconds. -/
def afterClock? (cs : List Char) : Option (List Char) := do
  let (hour, rest) ← shortNumber? cs
  let (minute, rest) ← (after? ':' rest).bind shortNumber?
  let (second, rest) ← (after? ':' rest).bind shortNumber?
  guard (hour < 24 && minute < 60 && second < 60)
  return afterFraction rest

/-- A zone: the mark of universal time or a distance from it. -/
def isZone : List Char → Bool
  | ['Z'] => true
  | [sign, h, i, ':', m, n] =>
    (sign == '+' || sign == '-') && areDigits [h, i, m, n] &&
      Decimal.ofDigits [h, i] ≤ 24 && Decimal.ofDigits [m, n] ≤ 60
  | _ => false

/-- A day, or a day with a time: after blanks without a zone, after the letter T with one. -/
def isTime (cs : List Char) : Bool :=
  match afterDate? cs with
  | none => false
  | some [] => true
  | some (c :: rest) =>
    if c == ' ' then afterClock? (rest.dropWhile (· == ' ')) == some []
    else (c == 'T' || c == 't') && (afterClock? rest).any isZone

/-! ## All -/

/-- Numbers and times, as their first characters announce them. -/
def isNumberOrTime (cs : List Char) : Bool :=
  match cs with
  | '.' :: rest => underscoresSeparate '.' rest && isReal (dropUnderscores cs)
  | c :: _ =>
    let plain := dropUnderscores cs
    (Decimal.isDigit c || c == '+' || c == '-') &&
      (isTime cs || isWhole plain || isReal plain || isSignedInside plain)
  | [] => false

/-- Does a plain scalar stand for itself? -/
def readsAsText (s : String) : Bool :=
  let cs := s.toList
  !(reservedScalars.contains s || isNumberOrTime cs || isSexagesimal cs)

end FortranJulia.Report
