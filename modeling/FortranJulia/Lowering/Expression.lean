import FortranJulia.Lowering.State
import FortranJulia.Lowering.Typing

/-!
Lowering of expressions. Operators keep their order of precedence, so that parentheses are written
only where the source has them and under negations; a quotient of integers becomes a call of `div`.
-/

namespace FortranJulia

set_option autoImplicit false

open Julia (Expr Binding)

/-! ## Constants -/

namespace Lexeme

/-- A number in Julia: reals keep a point or an exponent. -/
def juliaNumber (lx : Lexeme) : String :=
  match lx.value with
  | some (.int n) => Decimal.ofInt n
  | some (.real x) =>
    let s := x.text
    if s.toList.any fun c => c == '.' || c == 'e' || c == 'I' || c == 'N' then s else s ++ ".0"
  | _ => lx.text

/-- The text value of a constant. -/
def textValue (lx : Lexeme) : String :=
  match lx.value with
  | some (.text s) => s
  | _ => ""

def isQuote (c : Char) : Bool := c == '\'' || c == '"'

/-- A constant of another radix, such as `Z'FF'`, as a Julia literal. Without a closing quote it
stays as it is. -/
def radixNumber (text : String) : String :=
  match text.toList with
  | [] => text
  | letter :: rest =>
    let quoted := (letter :: rest).dropWhile (!isQuote ·)
    match quoted.drop 1, (quoted.drop 1).reverse.dropWhile (!isQuote ·) with
    | _ :: _, _ :: digits =>
      let ds := String.ofList (digits.reverse.map Char.toLower)
      if letter == 'B' || letter == 'b' then "0b" ++ ds
      else if letter == 'O' || letter == 'o' then "0o" ++ ds
      else "0x" ++ ds
    | _, _ => text

/-- A constant in Julia. -/
def juliaConstant (lx : Lexeme) : Expr :=
  match lx.kind with
  | .integerConst | .realConst => .number lx.juliaNumber
  | .charConst => .str lx.text
  | .hollerithConst => .str (Text.juliaString lx.textValue)
  | .binaryConst | .octalConst | .hexConst => .number (radixNumber lx.text)
  | .trueConst => .truth true
  | .falseConst => .truth false
  | _ => .verbatim lx.text

end Lexeme

namespace Component

def julia (c : Component) : Expr :=
  match c.sign with
  | some s => .signed s.text c.number.juliaConstant
  | none => c.number.juliaConstant

end Component

/-! ## Conversions -/

/-- An integer value as a float, written directly for a literal. -/
def floatValue (e : Expr) : Expr :=
  match Decimal.int? e.text with
  | some _ => .number (e.text ++ ".0")
  | none => .call "float" [e]

/-- A value of type `source` converted to type `target`. -/
def convertValue (target source : Option TypeName) (e : Expr) : Expr :=
  if target == some .integer && TypeName.isFloating source then .typedCall "trunc" "Int" [e]
  else if TypeName.isFloating target && source == some .integer then floatValue e
  else e

/-- The initial value of a scalar. -/
def zeroValue : Option TypeName → Expr
  | some .real | some .doublePrecision => .number "0.0"
  | some .complex => .call "complex" [.number "0.0"]
  | some .logical => .truth false
  | some .character => .str "\"\""
  | _ => .number "0"

/-! ## Operators -/

/-- The Julia operator, except for divisions of integers. -/
def BinaryOp.julia : BinaryOp → String
  | .or => "||"
  | .and => "&&"
  | .eq => "=="
  | .ne => "!="
  | .lt => "<"
  | .le => "<="
  | .gt => ">"
  | .ge => ">="
  | .concat => "*"
  | .add => "+"
  | .subtract => "-"
  | .multiply => "*"
  | .divide => "/"
  | .power => "^"

/-- An operation on operands of known types. A quotient of integers is cut off. -/
def combine (op : BinaryOp) (leftType rightType : Option TypeName) (l r : Expr) : Expr :=
  if op == .divide && leftType == some .integer && rightType == some .integer then
    .call "div" [l, r]
  else .operation op.julia l r

namespace Lower

def typeOf (e : Expression) : Lower (Option TypeName) := do
  return e.typeOf (← table)

/-- How a reference with a list in parentheses is read. -/
inductive RefForm where
  /-- An array element, an array section or part of a text. -/
  | index
  | call
  | intrinsic (f : Intrinsic)
  /-- A call of something that is not known. -/
  | unresolved

/-- The form of a reference by what is declared so far. -/
def refForm (t : Table) (name : String) (items : List Subscript) : RefForm :=
  if t.isArray name then .index
  else
    match t.procedure name with
    | .function | .subroutine | .statementFunction | .externalName => .call
    | _ =>
      match Intrinsic.lookup? name with
      | some f => .intrinsic f
      | none =>
        if t.typeOf name == some .character && items.any (·.isSpan) then .index
        else .unresolved

mutual

/-- The Julia form of an expression. -/
def expr : Expression → Lower Expr
  | .constant lx => return lx.juliaConstant
  | .complex re im => return .call "complex" [re.julia, im.julia]
  | .reference lx suffixes =>
    match suffixes with
    | [] => return .name (← ident lx.text)
    | items :: rest => do
      match refForm (← table) lx.text items with
      | .index =>
        let base := Expr.name (← ident lx.text)
        let subs ← subscripts items
        indexed (.index base subs) rest
      | .call =>
        let f ← callee lx.text
        let args ← arguments items
        indexed (.call f args) rest
      | .intrinsic f =>
        let args ← arguments items
        indexed (f.emit args) rest
      | .unresolved =>
        report .warning (lx.line, lx.col) Diagnostic.unresolvedReference
          (lx.text ++ " is neither an array nor a known procedure")
        let f ← callee lx.text
        let args ← arguments items
        indexed (.call f args) rest
  | .emptyCall lx => do
    let kind := (← table).procedure lx.text
    match (if kind.isCallable && kind != .intrinsic then none else Intrinsic.lookup? lx.text) with
    | some f => return f.emit []
    | none => return .call (← callee lx.text) []
  | .group e => return .paren (← expr e)
  | .signed s e => return .signed s.text (← expr e)
  | .negated n e => do
    let operand ← expr e
    return .negated n (if e.isPrimary then operand else .paren operand)
  | .binary .power l r => do
    -- The exponent is looked at before the base: it decides on spellings and comes first in reports.
    let right ← expr r
    let left ← expr l
    return .operation BinaryOp.power.julia left right
  | .binary op l r => do
    let left ← expr l
    let right ← expr r
    return combine op (← typeOf l) (← typeOf r) left right

/-- The form of one subscript. -/
def subscript : Subscript → Lower Expr
  | .value e => expr e
  | .span none none => return .colon
  | .span none (some b) => return .range [.number "1", ← expr b]
  | .span (some a) none => return .range [← expr a, .name "end"]
  | .span (some a) (some b) => do
    let first ← expr a
    let last ← expr b
    return .range [first, last]
  | .alternate _ => return .verbatim ""

def subscripts : List Subscript → Lower (List Expr)
  | [] => return []
  | s :: ss => do
    let e ← subscript s
    let es ← subscripts ss
    return e :: es

/-- The arguments of a call. Alternate returns are left out. -/
def arguments : List Subscript → Lower (List Expr)
  | [] => return []
  | .alternate star :: ss => do
    report .warning (star.line, star.col) Label.sectionSubscript.name
      "alternate return argument dropped"
    arguments ss
  | s :: ss => do
    let e ← subscript s
    let es ← arguments ss
    return e :: es

/-- Further lists in parentheses as subscripts. -/
def indexed (base : Expr) : List (List Subscript) → Lower Expr
  | [] => return base
  | items :: rest => do
    let subs ← subscripts items
    indexed (.index base subs) rest

end

/-! ## Nodes -/

/-- The expression in a node, which has to hold one. -/
def expressionOf (n : Node) : Lower Expression :=
  match n.expression? with
  | some e => return e
  | none => throw .child

/-- The Julia form of the expression in a node. -/
def exprOf (n : Node) : Lower Expr := do
  expr (← expressionOf n)

def typeOfNode (n : Node) : Lower (Option TypeName) := do
  typeOf (← expressionOf n)

/-- The Julia form of an expression assigned to a variable of a type. -/
def converted (target : Option TypeName) (n : Node) : Lower Expr := do
  let source ← typeOfNode n
  return convertValue target source (← exprOf n)

/-- The range of loop bounds: first value, last value and an optional step. -/
def rangeOf : List Node → Lower Expr
  | [] | [_] => return .tuple []
  | a :: b :: rest => do
    let first ← exprOf a
    let last ← exprOf b
    match rest with
    | [] => return .range [first, last]
    | c :: _ => return .range [first, ← exprOf c, last]

/-- The text of a child, or the empty text. -/
def childText (n : Node) (l : Label) : String :=
  ((n.child? l).map (·.text)).getD ""

/-- The children of a child. -/
def grandchildren (n : Node) (l : Label) : List Node :=
  ((n.child? l).map (·.children)).getD []

/-- The target of an assignment: a name, bound as the unit binds its variables, or an element. -/
def target (v : Node) : Lower (Binding × Expr) := do
  let name := childText v .variableName
  match v.childrenWith .complexDataRefTail with
  | [] => do
    let b ← binding
    return (b, .name (← ident name))
  | tails =>
    let base ← ident name
    return (.plain, ← indexed (.name base) (tails.map (·.subscripts)))

end Lower

end FortranJulia
