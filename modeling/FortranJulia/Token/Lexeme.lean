import FortranJulia.Token.Kind
import FortranJulia.Text.Quoted
import FortranJulia.Decimal.Shortest

/-!
A lexeme is one token of a source: its kind, the text it was read from, the value of a constant
and the place where it starts. Lines and columns count from one.
-/

namespace FortranJulia

set_option autoImplicit false

/-- The value of a constant. -/
inductive Literal where
  | int (n : Int)
  | real (x : Binary64)
  | text (s : String)
  | truth (b : Bool)
  deriving DecidableEq, Repr

namespace Literal

/-- The value as text. -/
def render : Literal → String
  | .int n => Decimal.ofInt n
  | .real x => x.text
  | .text s => s
  | .truth b => if b then "true" else "false"

end Literal

structure Lexeme where
  kind : Kind
  text : String
  value : Option Literal
  line : Nat
  col : Nat
  deriving DecidableEq, Repr

namespace Lexeme

/-- The lexeme that ends a source at a place. -/
def endOfSource (line col : Nat) : Lexeme :=
  ⟨.eof, "", none, line, col⟩

instance : Inhabited Lexeme := ⟨endOfSource 0 0⟩

/-- The kind, the quoted text except for line ends and the end of the source, and the place. -/
def describe (label : String) (showsText : Bool) (text : String) (line col : Int) : String :=
  let middle := if showsText then " " ++ Text.quoted text else ""
  label ++ middle ++ " @" ++ Decimal.ofInt line ++ ":" ++ Decimal.ofInt col

/-- Does the line of a kind in a listing show its text? -/
def showsText (k : Option Kind) : Bool :=
  k != some .newline && k != some .eof

/-- The line of a lexeme in a listing. -/
def listing (lx : Lexeme) : String :=
  describe lx.kind.label (showsText (some lx.kind)) lx.text lx.line lx.col

end Lexeme

end FortranJulia
