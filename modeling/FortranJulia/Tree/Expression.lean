import FortranJulia.Tree.Node

/-!
Expressions as values: constants, references with their lists in parentheses, signs and binary
operations. Operations of one precedence group to the left, powers to the right, and parentheses
that were written are kept.
-/

namespace FortranJulia

set_option autoImplicit false

/-! ## The type -/

inductive BinaryOp where
  | or | and | eq | ne | lt | le | gt | ge | concat | add | subtract | multiply | divide | power
  deriving DecidableEq, Repr

/-- A part of a complex constant: a number with an optional sign. -/
structure Component where
  sign : Option Lexeme
  number : Lexeme
  deriving DecidableEq, Repr

mutual

inductive Expression where
  /-- A number, a text or a logical constant. -/
  | constant (lexeme : Lexeme)
  | complex (re im : Component)
  /-- A name with any number of lists in parentheses. -/
  | reference (name : Lexeme) (suffixes : List (List Subscript))
  /-- A name with an empty list. -/
  | emptyCall (name : Lexeme)
  /-- An expression in parentheses. -/
  | group (body : Expression)
  | signed (sign : Lexeme) (body : Expression)
  /-- A number of logical negations. -/
  | negated (count : Nat) (body : Expression)
  | binary (op : BinaryOp) (left right : Expression)

inductive Subscript where
  | value (e : Expression)
  /-- A range with a colon; either end may be missing. -/
  | span (first last : Option Expression)
  /-- A star and a label. -/
  | alternate (star : Lexeme)

end

namespace BinaryOp

/-- The comparison of a token between dots. -/
def ofRelation? : Kind → Option BinaryOp
  | .eqOp => some .eq
  | .neOp => some .ne
  | .ltOp => some .lt
  | .leOp => some .le
  | .gtOp => some .gt
  | .geOp => some .ge
  | _ => none

/-- The operation of an arithmetic token. -/
def ofArithmetic? : Kind → Option BinaryOp
  | .plus => some .add
  | .minus => some .subtract
  | .star => some .multiply
  | .slash => some .divide
  | _ => none

end BinaryOp

namespace Subscript

def isSpan : Subscript → Bool
  | .span _ _ => true
  | _ => false

end Subscript

namespace Expression

/-- Is the expression an operand that needs no parentheses under a negation? -/
def isPrimary : Expression → Bool
  | .constant _ | .complex _ _ | .reference _ _ | .emptyCall _ | .group _ => true
  | _ => false

/-- The name of an expression that is nothing else. -/
def bareName? : Expression → Option Lexeme
  | .reference n [] => some n
  | _ => none

end Expression

/-! ## From syntax trees -/

/-- What a phrase contributes to the expression around it. -/
inductive Part where
  | token (lexeme : Lexeme)
  | expr (e : Expression)
  | operation (op : BinaryOp) (right : Expression)
  | sign (lexeme : Lexeme)
  | name (lexeme : Lexeme)
  | component (c : Component)
  | subscript (s : Subscript)
  | suffix (items : List Subscript)
  | other

namespace Part

/-- Operations applied from left to right. -/
def applyAll : Expression → List Part → Part
  | e, [] => .expr e
  | e, .operation op r :: rest => applyAll (.binary op e r) rest
  | _, _ => .other

/-- An operand with an optional sign, and operations on it. -/
def chain : List Part → Part
  | .sign s :: .expr e :: rest => applyAll (.signed s e) rest
  | .expr e :: rest => applyAll e rest
  | _ => .other

/-- An operand behind some negations. -/
def negations (count : Nat) : List Part → Part
  | [.expr e] => .expr (if count == 0 then e else .negated count e)
  | .token _ :: rest => negations (count + 1) rest
  | _ => .other

/-- An operation by the kind of its token. -/
def operationOf (op? : Option BinaryOp) (right : Expression) : Part :=
  match op? with
  | some op => .operation op right
  | none => .other

def subscriptOf : List Part → Part
  | [.expr e] => .subscript (.value e)
  | [.expr e, .token _] => .subscript (.span (some e) none)
  | [.expr e, .token _, .expr f] => .subscript (.span (some e) (some f))
  | [.token lx] => if lx.kind == .colon then .subscript (.span none none) else .other
  | [.token lx, .expr e] =>
    if lx.kind == .colon then .subscript (.span none (some e)) else .other
  | [.token lx, .other] => if lx.kind == .star then .subscript (.alternate lx) else .other
  | _ => .other

def subscript? : Part → Option Subscript
  | .subscript s => some s
  | _ => none

def suffix? : Part → Option (List Subscript)
  | .suffix items => some items
  | _ => none

/-- The part of a node by its label and the parts of its children. -/
def ofInner : Label → List Part → Part
  | .expr, ps | .orOperand, ps | .level4Expr, ps | .level3Expr, ps | .level2Expr, ps
  | .addOperand, ps | .multOperand, ps => chain ps
  | .andOperand, ps => negations 0 ps
  | .orOp, [.token _, .expr e] => .operation .or e
  | .andOp, [.token _, .expr e] => .operation .and e
  | .relOp, [.token lx, .expr e] => operationOf (BinaryOp.ofRelation? lx.kind) e
  | .concatOp, [.token _, .token _, .expr e] => .operation .concat e
  | .addOp, [.token lx, .expr e] | .multOp, [.token lx, .expr e] =>
    operationOf (BinaryOp.ofArithmetic? lx.kind) e
  | .powerOp, [.token _, .expr e] => .operation .power e
  | .powerOp, [.token _, .sign s, .expr e] => .operation .power (.signed s e)
  | .sign, [.token lx] => .sign lx
  | .primary, [.token _, .expr e, .token _] => .expr (.group e)
  | .primary, [.expr e] | .unsignedArithmeticConstant, [.expr e] => .expr e
  | .primary, [.token lx] | .unsignedArithmeticConstant, [.token lx]
  | .logicalConstant, [.token lx] => .expr (.constant lx)
  | .complexConst, [.token _, .component a, .token _, .component b, .token _] =>
    .expr (.complex a b)
  | .complexComponent, [.sign s, .token n] => .component ⟨some s, n⟩
  | .complexComponent, [.token n] => .component ⟨none, n⟩
  | .refName, [.token lx] => .name lx
  | .functionReference, .name lx :: _ => .expr (.emptyCall lx)
  | .nameDataRef, .name lx :: tails => .expr (.reference lx (tails.filterMap suffix?))
  | .complexDataRefTail, [.token _, .suffix items, .token _] => .suffix items
  | .sectionSubscriptList, ps => .suffix (ps.filterMap subscript?)
  | .sectionSubscript, ps => subscriptOf ps
  | _, _ => .other

mutual

def ofNode : Node → Part
  | .leaf _ lx => .token lx
  | .inner _ l cs => ofInner l (ofNodes cs)

def ofNodes : List Node → List Part
  | [] => []
  | n :: ns => ofNode n :: ofNodes ns

end

end Part

namespace Node

/-- The expression a node holds; a leaf is a constant. -/
def expression? (n : Node) : Option Expression :=
  match Part.ofNode n with
  | .expr e => some e
  | .token lx => some (.constant lx)
  | _ => none

/-- The subscripts in a list in parentheses. -/
def subscripts (tail : Node) : List Subscript :=
  ((Part.ofNode tail).suffix?).getD []

end Node

end FortranJulia
