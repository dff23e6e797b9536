import FortranJulia.Grammar.Match
import FortranJulia.Proofs.Meaning.Quantity
import FortranJulia.Symbol.Scope
import FortranJulia.Tree.Expression

/-!
Values of FORTRAN expressions, read off the syntax tree. Operations of one level are carried out
from left to right, and a quotient is cut off exactly if both operands are integers. Values are
given to expressions made of names without subscripts, integer and logical constants, parentheses,
signs, arithmetic, comparisons and logical operations; all others, and those of which an operand is
of the wrong kind, have none.
-/

namespace FortranJulia

set_option autoImplicit false

namespace Quantity

/-- The quotient in FORTRAN. -/
def quotient : Quantity → Quantity → Option Quantity :=
  arithmetic cutOff exact

/-- The operation of an operator. -/
def operate (p : Powers) : Kind → Quantity → Quantity → Option Quantity
  | .plus => plus
  | .minus => minus
  | .star => times
  | .slash => quotient
  | .starStar => power p
  | .eqOp => compare (fun x y => x = y)
  | .neOp => compare (fun x y => x ≠ y)
  | .ltOp => compare (fun x y => x < y)
  | .leOp => compare (fun x y => x ≤ y)
  | .gtOp => compare (fun x y => x > y)
  | .geOp => compare (fun x y => x ≥ y)
  | .andOp => connect and
  | .orOp => connect or
  | _ => fun _ _ => none

/-- A quantity with a sign in front. -/
def signed : Kind → Quantity → Option Quantity
  | .plus => positive
  | .minus => negative
  | _ => fun _ => none

end Quantity

/-- The value of a constant. -/
def Lexeme.quantity (lx : Lexeme) : Option Quantity :=
  match lx.kind, lx.value with
  | .integerConst, some (.int n) => some (.integer n)
  | .trueConst, _ => some (.logical true)
  | .falseConst, _ => some (.logical false)
  | _, _ => none

/-! ## Trees -/

namespace Node

section Values

-- Names have their values by key.
variable (p : Powers) (names : String → Quantity)

mutual

/-- The value of an expression of any level. -/
def value : Node → Option Quantity
  | .leaf _ lx => lx.quantity
  | .inner _ .nameDataRef [.inner _ .refName [.leaf _ lx]] => some (names (nameKey lx.text))
  | .inner _ .primary [.leaf _ _, e, .leaf _ _] => value e
  | .inner _ .andOperand cs => negations cs
  | .inner _ _ cs => chain cs

/-- The value of an operand, which may have a sign, with operations behind it. -/
def chain : List Node → Option Quantity
  | [] => none
  | .inner _ .sign [.leaf _ s] :: c :: ops =>
    ((value c).bind (Quantity.signed s.kind)).bind fun q => operations q ops
  | c :: ops => (value c).bind fun q => operations q ops

/-- The value that operations make of a value, from left to right. -/
def operations (q : Quantity) : List Node → Option Quantity
  | [] => some q
  | .inner _ _ (.leaf _ op :: right) :: rest =>
    (chain right).bind fun r => (Quantity.operate p op.kind q r).bind fun v => operations v rest
  | _ => none

/-- The value of an operand behind negations. -/
def negations : List Node → Option Quantity
  | [] => none
  | [c] => value c
  | .leaf _ op :: rest => if op.kind == .notOp then (negations rest).bind Quantity.opposite else none
  | _ => none

end

@[simp] theorem value_leaf (i : Nat) (lx : Lexeme) :
    (Node.leaf i lx).value p names = lx.quantity := by
  rw [value]

@[simp] theorem operations_nil (q : Quantity) : operations p names q [] = some q := by
  rw [operations]

@[simp] theorem chain_leaf (i : Nat) (lx : Lexeme) (ops : List Node) :
    chain p names (.leaf i lx :: ops) = lx.quantity.bind fun q => operations p names q ops := by
  simp [chain]

end Values

/-- The names in an expression. -/
def names (n : Node) : List String :=
  (n.lexemes.filter Match.isName).map (·.text)

end Node

/-! ## Expressions -/

namespace BinaryOp

/-- The operation of an operator; concatenation has no value here. -/
def operate (p : Powers) : BinaryOp → Quantity → Quantity → Option Quantity
  | .or => Quantity.operate p .orOp
  | .and => Quantity.operate p .andOp
  | .eq => Quantity.operate p .eqOp
  | .ne => Quantity.operate p .neOp
  | .lt => Quantity.operate p .ltOp
  | .le => Quantity.operate p .leOp
  | .gt => Quantity.operate p .gtOp
  | .ge => Quantity.operate p .geOp
  | .concat => fun _ _ => none
  | .add => Quantity.operate p .plus
  | .subtract => Quantity.operate p .minus
  | .multiply => Quantity.operate p .star
  | .divide => Quantity.operate p .slash
  | .power => Quantity.operate p .starStar

end BinaryOp

namespace Quantity

/-- A number of negations. -/
def opposites : Nat → Quantity → Option Quantity
  | 0, q => some q
  | n + 1, q => (opposites n q).bind opposite

end Quantity

namespace Expression

/-- The value of an expression that was taken out of its tree. -/
def value (p : Powers) (names : String → Quantity) : Expression → Option Quantity
  | .constant lx => lx.quantity
  | .reference lx [] => some (names (nameKey lx.text))
  | .group e => value p names e
  | .signed s e => (value p names e).bind (Quantity.signed s.kind)
  | .negated n e => (value p names e).bind (Quantity.opposites n)
  | .binary op l r =>
    (value p names l).bind fun a => (value p names r).bind fun b => op.operate p a b
  | _ => none

end Expression

end FortranJulia
