import FortranJulia.Julia.Expr
import FortranJulia.Symbol.Implicit

/-!
The intrinsic procedures of FORTRAN and how a call of each is written in Julia. Most are a function
of another name; conversions name a type, comparisons of texts become operators and the positive
difference a maximum. A generic procedure has the type of its arguments and none of its own.
-/

namespace FortranJulia

set_option autoImplicit false

/-- How a call is written. -/
inductive CallForm where
  | plain
  /-- With a type as the first argument. -/
  | typed (type : String)
  /-- As an operator in parentheses. -/
  | comparison
  /-- As the larger of a difference and zero. -/
  | difference
  deriving DecidableEq, Repr

structure Intrinsic where
  name : String
  julia : String
  type : Option TypeName
  form : CallForm
  deriving DecidableEq, Repr

namespace Intrinsic

open Julia (Expr)

/-- The Julia expression of a call. -/
def emit (f : Intrinsic) (args : List Expr) : Expr :=
  match f.form, args with
  | .plain, _ => .call f.julia args
  | .typed t, _ => .typedCall f.julia t args
  | .comparison, [a, b] => .paren (.operation f.julia a b)
  | .comparison, _ => .paren (.joined f.julia args)
  | .difference, [a, b] => .call f.julia [.operation "-" a b, .call "zero" [a]]
  | .difference, _ => .call f.julia args

/-! ## The table -/

/-- Names of one Julia function, each with its type. -/
def family (julia : String) (form : CallForm) (members : List (String × Option TypeName)) :
    List Intrinsic :=
  members.map fun m => ⟨m.1, julia, m.2, form⟩

/-- All intrinsic procedures. -/
def all : List Intrinsic :=
  family "abs" .plain [("ABS", none), ("IABS", some .integer), ("DABS", none), ("CABS", none)] ++
  family "sqrt" .plain [("SQRT", none), ("DSQRT", some .doublePrecision), ("CSQRT", none)] ++
  family "exp" .plain [("EXP", none), ("DEXP", some .doublePrecision), ("CEXP", none)] ++
  family "log" .plain
    [("LOG", none), ("ALOG", some .real), ("DLOG", some .doublePrecision), ("CLOG", none)] ++
  family "log10" .plain
    [("LOG10", none), ("ALOG10", some .real), ("DLOG10", some .doublePrecision)] ++
  family "sin" .plain [("SIN", none), ("DSIN", some .doublePrecision), ("CSIN", none)] ++
  family "cos" .plain [("COS", none), ("DCOS", some .doublePrecision), ("CCOS", none)] ++
  family "tan" .plain [("TAN", none), ("DTAN", none)] ++
  family "asin" .plain [("ASIN", none), ("DASIN", none)] ++
  family "acos" .plain [("ACOS", none), ("DACOS", none)] ++
  family "atan" .plain
    [("ATAN", none), ("DATAN", none), ("ATAN2", none), ("DATAN2", none)] ++
  family "sinh" .plain [("SINH", none), ("DSINH", none)] ++
  family "cosh" .plain [("COSH", none), ("DCOSH", none)] ++
  family "tanh" .plain [("TANH", none), ("DTANH", none)] ++
  family "rem" .plain
    [("MOD", none), ("AMOD", some .real), ("DMOD", some .doublePrecision)] ++
  family "copysign" .plain [("SIGN", none), ("ISIGN", some .integer), ("DSIGN", none)] ++
  family "max" .plain
    [("MAX", none), ("MAX0", some .integer), ("AMAX0", some .real), ("MAX1", none),
     ("AMAX1", some .real), ("DMAX1", some .doublePrecision)] ++
  family "min" .plain
    [("MIN", none), ("MIN0", some .integer), ("AMIN0", some .real), ("MIN1", none),
     ("AMIN1", some .real), ("DMIN1", some .doublePrecision)] ++
  family "float" .plain
    [("FLOAT", some .real), ("REAL", some .real), ("SNGL", some .real)] ++
  family "Float64" .plain [("DBLE", some .doublePrecision)] ++
  family "complex" .plain [("CMPLX", some .complex)] ++
  family "imag" .plain [("AIMAG", some .real)] ++
  family "conj" .plain [("CONJG", none)] ++
  family "length" .plain [("LEN", some .integer)] ++
  family "fortran_index" .plain [("INDEX", some .integer)] ++
  family "Char" .plain [("CHAR", some .character)] ++
  family "Int" .plain [("ICHAR", some .integer)] ++
  family "trunc" .plain [("AINT", none), ("DINT", none)] ++
  family "round" .plain [("ANINT", none), ("DNINT", none)] ++
  family "trunc" (.typed "Int")
    [("INT", some .integer), ("IFIX", some .integer), ("IDINT", some .integer)] ++
  family "round" (.typed "Int") [("NINT", some .integer), ("IDNINT", some .integer)] ++
  family "max" .difference [("DIM", none)] ++
  family ">=" .comparison [("LGE", some .logical)] ++
  family ">" .comparison [("LGT", some .logical)] ++
  family "<=" .comparison [("LLE", some .logical)] ++
  family "<" .comparison [("LLT", some .logical)]

/-- The intrinsic procedure of a name in any letter case. -/
def lookup? (name : String) : Option Intrinsic :=
  let w := Text.upper name
  all.find? (·.name == w)

/-- The names of all intrinsic procedures in alphabetical order. -/
def names : List String :=
  (all.map (·.name)).mergeSort (fun a b => a ≤ b)

end Intrinsic

end FortranJulia
