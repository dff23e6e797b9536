import FortranJulia.Decimal.Reading

/-!
Writing of binary floating-point values: the fewest decimal digits that read back as the same
value, the nearest such decimal, and the layout of those digits with or without an exponent.
-/

namespace FortranJulia.Decimal

set_option autoImplicit false

/-! ## The digits -/

/-- The numbers that round to `m * 2 ^ q` lie between `low` and `high`, both over `den`; the ends
belong to them when `closed`. -/
structure Interval where
  low : Nat
  value : Nat
  high : Nat
  den : Nat
  closed : Bool

/-- The interval of the finite value `m * 2 ^ q`. Below a power of two the spacing is half. -/
def interval (m : Nat) (q : Int) : Interval :=
  let below := if m == Nat.pow 2 52 && q > Binary64.leastExponent then 1 else 2
  let (value, den) := Binary64.scaleByTwo (4 * m) 4 q
  let (unit, _) := Binary64.scaleByTwo 1 4 q
  { low := value - below * unit, value := value, high := value + 2 * unit, den := den,
    closed := m % 2 == 0 }

namespace Interval

/-- Does `n * 10 ^ e` round to the value? -/
def holds (i : Interval) (n : Nat) (e : Int) : Bool :=
  let (a, b) : Nat × Nat :=
    match e with
    | .ofNat k => (n * Nat.pow 10 k, 1)
    | .negSucc k => (n, Nat.pow 10 (k + 1))
  let x := a * i.den
  if i.closed then i.low * b ≤ x && x ≤ i.high * b else i.low * b < x && x < i.high * b

/-- The value divided by `10 ^ e`, as a fraction. -/
def scaled (i : Interval) (e : Int) : Nat × Nat :=
  match e with
  | .ofNat k => (i.value, i.den * Nat.pow 10 k)
  | .negSucc k => (i.value * Nat.pow 10 (k + 1), i.den)

/-- On the grid of multiples of `10 ^ e`, the neighbour of the value that rounds to it, the nearer
one if both do and the even one if both are as near. -/
def neighbour? (i : Interval) (e : Int) : Option Nat :=
  let (a, b) := i.scaled e
  let lower := a / b
  let r := a % b
  match i.holds lower e, i.holds (lower + 1) e with
  | true, true =>
    some (if 2 * r < b || (2 * r == b && lower % 2 == 0) then lower else lower + 1)
  | true, false => some lower
  | false, true => some (lower + 1)
  | false, false => none

end Interval

/-- The decimal exponent of the first digit of `num / den`. -/
def leadingExponent (num den : Nat) : Int :=
  let guess : Int := ((Nat.toDigits 10 num).length : Int) - (Nat.toDigits 10 den).length
  let atLeast : Bool :=
    match guess with
    | .ofNat k => den * Nat.pow 10 k ≤ num
    | .negSucc k => den ≤ num * Nat.pow 10 (k + 1)
  if atLeast then guess else guess - 1

/-- Looks for a decimal of `count`, `count + 1`, … digits, at most `more` further ones. -/
def searchShortest (i : Interval) (x : Int) (count : Nat) : Nat → Nat × Int
  | 0 => (((i.scaled (x - count + 1)).1 / (i.scaled (x - count + 1)).2), x - count + 1)
  | more + 1 =>
    match i.neighbour? (x - count + 1) with
    | some n => (n, x - count + 1)
    | none => searchShortest i x (count + 1) more

/-- Significant digits, first to last without zeros at the end, and the exponent of the first. -/
structure Significant where
  digits : List Char
  exponent : Int

/-- The shortest digits of the positive value `m * 2 ^ q`. -/
def shortest (m : Nat) (q : Int) : Significant :=
  let i := interval m q
  let x := leadingExponent i.value i.den
  let (n, e) := searchShortest i x 1 17
  let ds := Nat.toDigits 10 n
  { digits := (ds.reverse.dropWhile (· == '0')).reverse, exponent := e + ds.length - 1 }

/-! ## The layout -/

/-- Where plain notation ends and how wide an exponent is at least. -/
structure Layout where
  leastPlain : Int
  leastScaled : Int
  exponentWidth : Nat

/-- Plain notation from `0.0001` up to six digits before the point; two exponent digits. -/
def general : Layout := ⟨-4, 6, 2⟩

namespace Layout

def exponent (l : Layout) (x : Int) : List Char :=
  let ds := Nat.toDigits 10 x.natAbs
  'e' :: (if x < 0 then '-' else '+') :: List.replicate (l.exponentWidth - ds.length) '0' ++ ds

def scaledForm (l : Layout) (s : Significant) : List Char :=
  match s.digits with
  | [] => []
  | [d] => d :: l.exponent s.exponent
  | d :: ds => d :: '.' :: ds ++ l.exponent s.exponent

def plainForm (s : Significant) : List Char :=
  match s.exponent with
  | .ofNat k =>
    let whole := s.digits.take (k + 1)
    let rest := s.digits.drop (k + 1)
    let whole := whole ++ List.replicate (k + 1 - whole.length) '0'
    if rest.isEmpty then whole else whole ++ '.' :: rest
  | .negSucc k => '0' :: '.' :: List.replicate k '0' ++ s.digits

def write (l : Layout) : Binary64 → String
  | .infinite => "+Inf"
  | .finite m q =>
    if m == 0 then "0"
    else
      let s := shortest m q
      String.ofList
        (if s.exponent < l.leastPlain || s.exponent ≥ l.leastScaled then l.scaledForm s
         else plainForm s)

end Layout

end FortranJulia.Decimal

namespace FortranJulia

/-- The text of a value in general notation. -/
def Binary64.text (x : Binary64) : String :=
  Decimal.general.write x

end FortranJulia
