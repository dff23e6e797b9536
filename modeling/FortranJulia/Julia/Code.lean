import FortranJulia.Julia.Expr

/-!
Julia code as lines: each line knows how deeply it is nested and what it does. The text of a line
starts with the indentation of its depth.
-/

namespace FortranJulia.Julia

set_option autoImplicit false

/-- What stands before the names of a binding. -/
inductive Binding where
  | plain
  | globally
  | constant
  deriving DecidableEq, Repr

def Binding.text : Binding → String
  | .plain => ""
  | .globally => "global "
  | .constant => "const "

/-- What one line does. -/
inductive Code where
  | functionHead (name : String) (params : List String)
  | forHead (index : String) (range : Expr)
  /-- A loop over pairs of an index and a value. -/
  | forPairs (index : String) (range values : Expr)
  | ifHead (condition : Expr)
  | elseifHead (condition : Expr)
  | elseHead
  /-- The end of a block. -/
  | close
  | label (name : String)
  | goto (name : String)
  | comment (text : String)
  /-- A return from a function with the given values. -/
  | returns (values : List String)
  | assign (binding : Binding) (targets : List Expr) (value : Expr)
  | globals (names : List String)
  /-- A function in one line. -/
  | shortFunction (name : String) (params : List String) (body : Expr)
  | run (e : Expr)
  deriving Repr

namespace Code

open Julia.Expr (separated)

def text : Code → String
  | .functionHead f ps => "function " ++ f ++ "(" ++ separated ", " ps ++ ")"
  | .forHead v r => "for " ++ v ++ " in " ++ r.text
  | .forPairs v r xs => "for (" ++ v ++ ", _v) in zip(" ++ r.text ++ ", " ++ xs.text ++ ")"
  | .ifHead c => "if " ++ c.text
  | .elseifHead c => "elseif " ++ c.text
  | .elseHead => "else"
  | .close => "end"
  | .label l => "@label " ++ l
  | .goto l => "@goto " ++ l
  | .comment s => if s == "" then "#" else "# " ++ s
  | .returns [] => "return"
  | .returns vs => "return " ++ separated ", " vs
  | .assign b ts e => b.text ++ separated ", " (Expr.texts ts) ++ " = " ++ e.text
  | .globals names => "global " ++ separated ", " names
  | .shortFunction f ps e => f ++ "(" ++ separated ", " ps ++ ") = " ++ e.text
  | .run e => e.text

end Code

/-- A line of code, or the empty line between two program units. -/
inductive Line where
  | code (depth : Nat) (code : Code)
  | gap
  deriving Repr

namespace Line

def text (indent : String) : Line → String
  | .code depth c => String.join (List.replicate depth indent) ++ c.text ++ "\n"
  | .gap => "\n"

/-- The text of lines in order. -/
def render (indent : String) (lines : List Line) : String :=
  String.join (lines.map (text indent))

end Line

end FortranJulia.Julia
