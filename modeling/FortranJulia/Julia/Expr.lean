/-!
Julia expressions as they are written. Operations are printed with blanks around the operator and
without parentheses of their own: where an operand needs them, they are part of the expression.
-/

namespace FortranJulia.Julia

set_option autoImplicit false

inductive Expr where
  /-- A number as it is spelled. -/
  | number (text : String)
  /-- A string literal with its quotes. -/
  | str (literal : String)
  | truth (value : Bool)
  | name (text : String)
  /-- Text that stands for itself. -/
  | verbatim (text : String)
  | paren (body : Expr)
  /-- An operator directly in front of its operand. -/
  | signed (sign : String) (body : Expr)
  | negated (count : Nat) (body : Expr)
  | operation (op : String) (left right : Expr)
  | call (callee : String) (args : List Expr)
  /-- A call whose first argument is a type. -/
  | typedCall (callee type : String) (args : List Expr)
  /-- Operands with an operator directly between them. -/
  | joined (op : String) (args : List Expr)
  | index (base : Expr) (subscripts : List Expr)
  | range (bounds : List Expr)
  /-- The whole of a dimension. -/
  | colon
  | vector (items : List Expr)
  | tuple (items : List Expr)
  /-- The items of a collection as arguments. -/
  | spread (body : Expr)
  /-- The values of an expression for a variable that runs through a range. -/
  | generator (element : Expr) (index : String) (range : Expr)
  /-- The items of collections for a variable that runs through a range, one after the other. -/
  | flattened (index : String) (range items : Expr)
  | conditional (condition yes no : Expr)
  deriving Repr

namespace Expr

/-- Texts with a separator between them. -/
def separated (sep : String) (texts : List String) : String :=
  sep.intercalate texts

mutual

def text : Expr → String
  | .number s => s
  | .str s => s
  | .truth b => if b then "true" else "false"
  | .name s => s
  | .verbatim s => s
  | .paren e => "(" ++ text e ++ ")"
  | .signed sign e => sign ++ text e
  | .negated n e => String.join (List.replicate n "!") ++ text e
  | .operation op l r => text l ++ " " ++ op ++ " " ++ text r
  | .call f args => f ++ "(" ++ separated ", " (texts args) ++ ")"
  | .typedCall f t args => f ++ "(" ++ t ++ ", " ++ separated ", " (texts args) ++ ")"
  | .joined op args => separated op (texts args)
  | .index e subs => text e ++ "[" ++ separated ", " (texts subs) ++ "]"
  | .range bounds => separated ":" (texts bounds)
  | .colon => ":"
  | .vector items => "[" ++ separated ", " (texts items) ++ "]"
  | .tuple items => "(" ++ separated ", " (texts items) ++ ")"
  | .spread e => text e ++ "..."
  | .generator e v r => "[" ++ text e ++ " for " ++ v ++ " in " ++ text r ++ "]"
  | .flattened v r items =>
    "[_v for " ++ v ++ " in " ++ text r ++ " for _v in " ++ text items ++ "]"
  | .conditional c a b => text c ++ " ? " ++ text a ++ " : " ++ text b

def texts : List Expr → List String
  | [] => []
  | e :: es => text e :: texts es

end

@[simp] theorem text_paren (e : Expr) : (paren e).text = "(" ++ e.text ++ ")" := by
  rw [text]

theorem texts_eq_map (es : List Expr) : texts es = es.map text := by
  induction es with
  | nil => rw [texts, List.map_nil]
  | cons e es ih => rw [texts, ih, List.map_cons]

end Expr

end FortranJulia.Julia
