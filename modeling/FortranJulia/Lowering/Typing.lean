import FortranJulia.Intrinsic.Table
import FortranJulia.Symbol.Table
import FortranJulia.Tree.Expression

/-!
Types of expressions. An arithmetic operation has the larger type of its operands, in the order
integer, real, double precision and complex; comparisons and logical operations are logical and
concatenations are texts. What is not known has no type.
-/

namespace FortranJulia

set_option autoImplicit false

namespace TypeName

/-- The place of an arithmetic type in the order of types. -/
def rank? : TypeName → Option Nat
  | .integer => some 1
  | .real => some 2
  | .doublePrecision => some 3
  | .complex => some 4
  | _ => none

/-- The type of an arithmetic operation. -/
def promote (a b : Option TypeName) : Option TypeName :=
  match a.bind rank?, b.bind rank? with
  | some i, some j => if i ≥ j then a else b
  | _, _ => none

/-- Are values of the type floating-point numbers? -/
def isFloating : Option TypeName → Bool
  | some .real | some .doublePrecision => true
  | _ => false

end TypeName

namespace Lexeme

/-- The type of a constant. -/
def constantType (lx : Lexeme) : Option TypeName :=
  match lx.kind with
  | .integerConst | .binaryConst | .octalConst | .hexConst => some .integer
  | .realConst =>
    if lx.text.toList.any (fun c => c == 'D' || c == 'd') then some .doublePrecision
    else some .real
  | .charConst | .hollerithConst => some .character
  | .trueConst | .falseConst => some .logical
  | _ => none

end Lexeme

namespace Table

/-- The intrinsic procedure a name refers to, if no other procedure has that name. -/
def intrinsic? (t : Table) (name : String) : Option Intrinsic :=
  if (t.procedure name).isCallable then none else Intrinsic.lookup? name

end Table

namespace Expression

mutual

/-- The type of an expression. -/
def typeOf (t : Table) : Expression → Option TypeName
  | .constant lx => lx.constantType
  | .complex _ _ => some .complex
  | .reference name suffixes =>
    match suffixes with
    | [] => t.typeOf name.text
    | items :: _ =>
      if t.isArray name.text then t.typeOf name.text
      else
        match t.intrinsic? name.text with
        | none => t.typeOf name.text
        | some f =>
          match f.type with
          | some y => some y
          | none => firstType t items
  | .emptyCall name =>
    match t.intrinsic? name.text with
    | some f => f.type
    | none => t.typeOf name.text
  | .group e => typeOf t e
  | .signed _ e => typeOf t e
  | .negated _ _ => some .logical
  | .binary op l r =>
    match op with
    | .concat => some .character
    | .add | .subtract | .multiply | .divide | .power =>
      TypeName.promote (typeOf t l) (typeOf t r)
    | _ => some .logical

/-- The type of the first argument: a generic procedure has it too. -/
def firstType (t : Table) : List Subscript → Option TypeName
  | .value e :: _ => typeOf t e
  | .span (some e) _ :: _ => typeOf t e
  | .span none (some e) :: _ => typeOf t e
  | _ => none

end

end Expression

end FortranJulia
