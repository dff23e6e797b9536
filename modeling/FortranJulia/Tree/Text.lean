import FortranJulia.Tree.Node

/-!
Three texts of a syntax tree: one nested expression in parentheses, one line per node, and the
source that its leaves spell.
-/

namespace FortranJulia

set_option autoImplicit false

/-! ## Spacing -/

namespace Kind

/-- Kinds that would run together without a blank. -/
def isWordLike (k : Kind) : Bool :=
  k == .name || k.isKeyword || k.isConstant

/-- Is a blank written between tokens of these kinds? -/
def spaced (before next : Kind) : Bool :=
  if before.isWordLike && next.isWordLike then true
  else if before == .comma then true
  else if before.isDotted || next.isDotted then
    before != .notOp && before != .lparen && next != .rparen
  else false

end Kind

/-- The source of a sequence of tokens on one line: ends of statements are left out. -/
def spelled (tokens : List (Kind × String)) : String :=
  let step (acc : String × Option Kind) (token : Kind × String) : String × Option Kind :=
    if token.1.endsStatement then acc
    else
      let gap :=
        match acc.2 with
        | some k => if acc.1 != "" && Kind.spaced k token.1 then " " else ""
        | none => ""
      (acc.1 ++ gap ++ token.2, some token.1)
  (tokens.foldl step ("", none)).1

/-- The source that lexemes spell. -/
def sourceOf (lexemes : List Lexeme) : String :=
  spelled (lexemes.map fun lx => (lx.kind, lx.text))

namespace Node

def source (n : Node) : String :=
  sourceOf n.lexemes

/-! ## Nested expression -/

/-- A leaf in a nested expression: its text, with a line end written as an escape. -/
def leafText (lx : Lexeme) : String :=
  if lx.kind.endsStatement && lx.text == "\n" then "\\n" else lx.text

mutual

def sexpr : Node → String
  | .leaf _ lx => leafText lx
  | .inner _ l cs => "(" ++ l.name ++ sexprs cs ++ ")"

def sexprs : List Node → String
  | [] => ""
  | n :: ns => " " ++ sexpr n ++ sexprs ns

end

/-! ## One line per node -/

def margin (depth : Nat) : String :=
  String.join (List.replicate depth ". ")

/-- The line of a leaf: its label, its quoted text and its place. -/
def leafLine (lx : Lexeme) : String :=
  Lexeme.describe lx.kind.label true lx.text lx.line lx.col

mutual

def outline (depth : Nat) : Node → String
  | .leaf _ lx => margin depth ++ leafLine lx ++ "\n"
  | .inner _ l cs => margin depth ++ l.name ++ "\n" ++ outlines (depth + 1) cs

def outlines (depth : Nat) : List Node → String
  | [] => ""
  | n :: ns => outline depth n ++ outlines depth ns

end

/-- The value of a leaf as text: that of its literal, or what it was read from. -/
def literalText (lx : Lexeme) : String :=
  match lx.value with
  | some v => v.render
  | none => lx.text

end Node

end FortranJulia
