/-!
Texts with variables: a dollar sign followed by a name, or by a name in braces, stands for the
value of that variable.
-/

namespace FortranJulia.Text

set_option autoImplicit false

/-- A part of a text with variables. -/
inductive Piece where
  | char (c : Char)
  | variableName (name : String)
  deriving DecidableEq, Repr

def isNameChar (c : Char) : Bool :=
  c == '_' || c.isAlphanum

/-- The characters that are names by themselves. -/
def isSpecialName (c : Char) : Bool :=
  c.isDigit || ['*', '#', '$', '@', '!', '?', '-'].contains c

/-- A name in braces, after the opening one, and the characters it takes up. Without a closing
brace, or with nothing in between, there is no name and the braces are dropped. -/
def bracedName (cs : List Char) : List Char × Nat :=
  match cs with
  | c :: '\x7d' :: _ => if isSpecialName c then ([c], 2) else if c == '\x7d' then ([], 1) else ([c], 2)
  | _ =>
    let name := cs.takeWhile (· != '\x7d')
    if name.length == cs.length then ([], 0) else (name, name.length + 1)

/-- The name after a dollar sign and the number of characters to go on after. -/
def nameAfterDollar (cs : List Char) : List Char × Nat :=
  match cs with
  | '\x7b' :: rest =>
    let (name, n) := bracedName rest
    (name, n + 1)
  | c :: rest =>
    if isSpecialName c then ([c], 1)
    else
      let name := (c :: rest).takeWhile isNameChar
      (name, name.length)
  | [] => ([], 0)

/-- The parts of a text. Each step takes at least one character, so the length of the text is
enough of them. -/
def piecesFrom : Nat → List Char → List Piece
  | 0, _ => []
  | _ + 1, [] => []
  | fuel + 1, c :: rest =>
    if c != '$' || rest.isEmpty then .char c :: piecesFrom fuel rest
    else
      match nameAfterDollar rest with
      | ([], 0) => .char '$' :: piecesFrom fuel rest
      | ([], n) => piecesFrom fuel (rest.drop n)
      | (name, n) => .variableName (String.ofList name) :: piecesFrom fuel (rest.drop n)

def pieces (s : String) : List Piece :=
  piecesFrom s.length s.toList

/-- A text with the values of its variables. -/
def expand {m : Type → Type} [Monad m] (value : String → m String) (s : String) : m String := do
  let parts ← (pieces s).mapM fun p =>
    match p with
    | .char c => pure (String.singleton c)
    | .variableName n => value n
  return String.join parts

end FortranJulia.Text
