/-!
Non-negative floating-point values with 53 significant bits, as exact numbers `m * 2 ^ q`, and the
value nearest to a given fraction. Halves go to the even neighbour; what is too large to represent
is infinite and what is too small is zero.
-/

namespace FortranJulia

set_option autoImplicit false

/-- A non-negative binary floating-point value: `finite m q` is `m * 2 ^ q`. -/
inductive Binary64 where
  | finite (mantissa : Nat) (exponent : Int)
  | infinite
  deriving DecidableEq, Repr

namespace Binary64

/-- The least exponent: values below `2 ^ 52 * 2 ^ leastExponent` have fewer than 53 bits. -/
def leastExponent : Int := -1074

/-- The exponent of the largest finite values. -/
def greatestExponent : Int := 971

def zero : Binary64 := .finite 0 leastExponent

/-- The quotient rounded to the nearest whole number, halves to the even one. -/
def roundQuotient (num den : Nat) : Nat :=
  let q := num / den
  let r := num % den
  if 2 * r > den || (2 * r == den && q % 2 == 1) then q + 1 else q

/-- The value `num * 2 ^ e / den` as a fraction of whole numbers. -/
def scaleByTwo (num den : Nat) (e : Int) : Nat × Nat :=
  match e with
  | .ofNat k => (num * Nat.pow 2 k, den)
  | .negSucc k => (num, den * Nat.pow 2 (k + 1))

/-- The exponent `e` with `2 ^ e ≤ num / den < 2 ^ (e + 1)`. -/
def floorLog (num den : Nat) : Int :=
  let guess : Int := (num.log2 : Int) - (den.log2 : Int)
  let (a, b) := scaleByTwo num den (-guess)
  if a < b then guess - 1 else guess

/-- The value nearest to `num / den`, for a positive `den`. -/
def nearest (num den : Nat) : Binary64 :=
  if num == 0 then zero
  else
    let q := max (floorLog num den - 52) leastExponent
    let (a, b) := scaleByTwo num den (-q)
    let m := roundQuotient a b
    let (m, q) := if m == Nat.pow 2 53 then (Nat.pow 2 52, q + 1) else (m, q)
    if q > greatestExponent then .infinite else .finite m q

end Binary64

end FortranJulia
