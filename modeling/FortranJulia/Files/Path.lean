/-!
File paths as text with slashes between their elements: the last element, the directory before it,
the extension, and the shortest path that says the same.
-/

namespace FortranJulia.Path

set_option autoImplicit false

/-- The parts between slashes, empty ones among them. -/
def split : List Char → List (List Char)
  | [] => [[]]
  | c :: cs =>
    if c == '/' then [] :: split cs
    else
      match split cs with
      | [] => [[c]]
      | p :: ps => (c :: p) :: ps

/-- Parts with slashes between them. -/
def joined : List (List Char) → List Char
  | [] => []
  | [p] => p
  | p :: ps => p ++ '/' :: joined ps

/-- What comes before the last slash, the slash included. -/
def upToSlash (cs : List Char) : List Char :=
  (cs.reverse.dropWhile (· != '/')).reverse

/-- What comes after the last slash. -/
def afterSlash (cs : List Char) : List Char :=
  (cs.reverse.takeWhile (· != '/')).reverse

def withoutSlashes (cs : List Char) : List Char :=
  (cs.reverse.dropWhile (· == '/')).reverse

/-! ## The shortest path -/

/-- Puts an element on top of those so far, the last first. An element is taken back by a double
dot; above the root there is nothing. -/
def push (rooted : Bool) (stack : List (List Char)) (part : List Char) : List (List Char) :=
  if part == [] || part == ['.'] then stack
  else if part == ['.', '.'] then
    match stack with
    | [] => if rooted then [] else [part]
    | top :: rest => if top == ['.', '.'] then part :: stack else rest
  else part :: stack

def cleanChars (cs : List Char) : List Char :=
  let rooted := cs.head? == some '/'
  let body := joined ((split cs).foldl (push rooted) []).reverse
  if rooted then '/' :: body else if body == [] then ['.'] else body

/-- The shortest path that names the same file. -/
def clean (path : String) : String :=
  String.ofList (cleanChars path.toList)

/-! ## Parts of a path -/

/-- The last element: a dot for the empty path and a slash for the root. -/
def base (path : String) : String :=
  if path == "" then "."
  else
    match afterSlash (withoutSlashes path.toList) with
    | [] => "/"
    | cs => String.ofList cs

/-- The directory of a path. -/
def dir (path : String) : String :=
  String.ofList (cleanChars (upToSlash path.toList))

/-- The last element from its last dot on, empty if it has none. -/
def extension (path : String) : String :=
  let name := afterSlash path.toList
  if name.contains '.' then String.ofList ('.' :: (name.reverse.takeWhile (· != '.')).reverse)
  else ""

/-- A file in a directory. -/
def join (directory file : String) : String :=
  match directory, file with
  | "", "" => ""
  | "", f => clean f
  | d, "" => clean d
  | d, f => clean (d ++ "/" ++ f)

/-- The name of the program made from a source: the last element of its path up to the first dot,
unless it starts with that, and an extension. -/
def outputName (path ext : String) : String :=
  let name := (base path).toList
  let stem := name.takeWhile (· != '.')
  String.ofList (if stem == [] then name else stem) ++ ext

end FortranJulia.Path
