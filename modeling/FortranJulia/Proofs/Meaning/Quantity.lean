import FortranJulia.Symbol.Implicit
import Mathlib.Data.Rat.Defs

/-!
Quantities: what the expressions of both languages stand for. Integers and reals are exact, a real
being a rational number, and truth values are of a kind of their own. An operation on quantities of
the wrong kinds has no value, and neither has a division by zero. Powers are not interpreted: they
are functions of which only the kind of their values is known.
-/

namespace FortranJulia

set_option autoImplicit false

inductive Quantity where
  | integer (n : Int)
  | real (x : Rat)
  | logical (b : Bool)
  deriving DecidableEq

/-- What a power of integers is, and what one is that has a real for its base or exponent. -/
structure Powers where
  whole : Int → Int → Option Int
  broken : Quantity → Quantity → Option Rat

namespace Quantity

/-- The type of the variables that hold a quantity. -/
def type : Quantity → TypeName
  | .integer _ => .integer
  | .real _ => .real
  | .logical _ => .logical

/-- The number that a quantity is. -/
def number? : Quantity → Option Rat
  | .integer n => some n
  | .real x => some x
  | .logical _ => none

/-! ## Numbers -/

/-- An operation on numbers: an integer for two integers and otherwise a real. -/
def arithmetic (whole : Int → Int → Option Int) (broken : Rat → Rat → Option Rat) :
    Quantity → Quantity → Option Quantity
  | .integer a, .integer b => (whole a b).map .integer
  | a, b => a.number?.bind fun x => b.number?.bind fun y => (broken x y).map .real

def plus : Quantity → Quantity → Option Quantity :=
  arithmetic (fun a b => some (a + b)) (fun x y => some (x + y))

def minus : Quantity → Quantity → Option Quantity :=
  arithmetic (fun a b => some (a - b)) (fun x y => some (x - y))

def times : Quantity → Quantity → Option Quantity :=
  arithmetic (fun a b => some (a * b)) (fun x y => some (x * y))

def power (p : Powers) : Quantity → Quantity → Option Quantity
  | .integer a, .integer b => (p.whole a b).map .integer
  | .logical _, _ | _, .logical _ => none
  | a, b => (p.broken a b).map .real

/-- The quotient of two integers, cut off towards zero. -/
def cutOff (a b : Int) : Option Int :=
  if b = 0 then none else some (a.tdiv b)

/-- The exact quotient of two numbers. -/
def exact (x y : Rat) : Option Rat :=
  if y = 0 then none else some (x / y)

def negative : Quantity → Option Quantity
  | .integer n => some (.integer (-n))
  | .real x => some (.real (-x))
  | .logical _ => none

/-- A number with a plus sign. -/
def positive : Quantity → Option Quantity
  | .logical _ => none
  | q => some q

/-- A comparison of two numbers of any kinds. -/
def compare (r : Rat → Rat → Bool) (a b : Quantity) : Option Quantity :=
  a.number?.bind fun x => b.number?.map fun y => .logical (r x y)

/-! ## Truth values -/

def connect (f : Bool → Bool → Bool) : Quantity → Quantity → Option Quantity
  | .logical a, .logical b => some (.logical (f a b))
  | _, _ => none

def opposite : Quantity → Option Quantity
  | .logical b => some (.logical !b)
  | _ => none

/-! ## Conversions -/

/-- The real that equals a number. -/
def toReal (q : Quantity) : Option Quantity :=
  q.number?.map .real

/-- A rational number without its fraction, towards zero. -/
def truncate (x : Rat) : Int :=
  x.num.tdiv x.den

def toInteger (q : Quantity) : Option Quantity :=
  q.number?.map fun x => .integer (truncate x)

/-- A quantity as the value of a variable of a type: a real loses its fraction as an integer, and
truth values are given to logical variables only. -/
def storedIn : TypeName → Quantity → Option Quantity
  | .integer, q => q.toInteger
  | .real, q => q.toReal
  | .logical, .logical b => some (.logical b)
  | _, _ => none

end Quantity

end FortranJulia
