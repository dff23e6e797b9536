import FortranJulia.Decimal.Binary64

/-!
Reading of decimal constants: whole numbers of any size, the 64-bit range, and reals written with
a point or an exponent.
-/

namespace FortranJulia.Decimal

set_option autoImplicit false

def isDigit (c : Char) : Bool :=
  '0' ≤ c && c ≤ '9'

/-- The number written by a list of digits. -/
def ofDigits (cs : List Char) : Nat :=
  cs.foldl (fun n c => 10 * n + (c.toNat - '0'.toNat)) 0

/-- The digits of a number. -/
def digits (n : Nat) : String :=
  String.ofList (Nat.toDigits 10 n)

/-- A whole number with a minus sign when it is negative. -/
def ofInt (n : Int) : String :=
  match n with
  | .ofNat k => digits k
  | .negSucc k => "-" ++ digits (k + 1)

/-- The largest signed 64-bit number. -/
def maxInt : Nat := Nat.pow 2 63 - 1

/-- A signed 64-bit number modulo `2 ^ 64`. -/
def wrap (n : Int) : Int :=
  n.bmod (Nat.pow 2 64)

/-- Why a text is not a whole number of 64 bits. -/
inductive IntError where
  | malformed
  | outOfRange
  deriving DecidableEq, Repr

/-- The words of an error. -/
def IntError.text : IntError → String
  | .malformed => "invalid syntax"
  | .outOfRange => "value out of range"

/-- Digits after those that write `n`. The first that is no digit, or that takes the number beyond
64 bits, decides the error. -/
def readDigits (n : Nat) : List Char → Except IntError Nat
  | [] => .ok n
  | c :: cs =>
    if !isDigit c then .error .malformed
    else
      let m := 10 * n + (c.toNat - '0'.toNat)
      if m ≥ Nat.pow 2 64 then .error .outOfRange else readDigits m cs

/-- A sign followed by one or more digits, within the signed 64-bit range. -/
def readInt (cs : List Char) : Except IntError Int :=
  let (negative, ds) :=
    match cs with
    | '-' :: ds => (true, ds)
    | '+' :: ds => (false, ds)
    | ds => (false, ds)
  if ds.isEmpty then .error .malformed
  else
    match readDigits 0 ds with
    | .error e => .error e
    | .ok n =>
      if negative then
        if n > maxInt + 1 then .error .outOfRange else .ok (-(n : Int))
      else if n > maxInt then .error .outOfRange
      else .ok n

/-- The number a text writes, if it is one of 64 bits. -/
def int? (s : String) : Option Int :=
  (readInt s.toList).toOption

/-- The number `m * 10 ^ e` as a binary value. Exponents far outside the range are decided by the
count of digits alone. -/
def scaled (m : Nat) (e : Int) : Binary64 :=
  if m == 0 then .zero
  else
    let size : Int := (Nat.toDigits 10 m).length
    if size + e > 400 then .infinite
    else if size + e < -400 then .zero
    else
      match e with
      | .ofNat k => .nearest (m * Nat.pow 10 k) 1
      | .negSucc k => .nearest m (Nat.pow 10 (k + 1))

/-- The exponent part of a real constant: a letter, an optional sign and digits. -/
def exponentPart : List Char → Int
  | _ :: '-' :: ds => -(ofDigits ds : Int)
  | _ :: '+' :: ds => ofDigits ds
  | _ :: ds => ofDigits ds
  | [] => 0

/-- The value of an unsigned real constant: digits, optionally a point and more digits, optionally
an exponent introduced by a letter. -/
def real (cs : List Char) : Binary64 :=
  let whole := cs.takeWhile isDigit
  let rest := cs.dropWhile isDigit
  let (fraction, rest) :=
    match rest with
    | '.' :: r => (r.takeWhile isDigit, r.dropWhile isDigit)
    | r => ([], r)
  scaled (ofDigits (whole ++ fraction)) (exponentPart rest - fraction.length)

end FortranJulia.Decimal
