/-!
White space, in the sense of the character database: the ASCII blanks and line ends, the next
line character, the no-break space and the typographic spaces.
-/

namespace FortranJulia.Text

set_option autoImplicit false

/-- The code points of white space. -/
def blankCodes : List Nat :=
  [0x09, 0x0a, 0x0b, 0x0c, 0x0d, 0x20, 0x85, 0xa0, 0x1680, 0x2000, 0x2001, 0x2002, 0x2003, 0x2004,
   0x2005, 0x2006, 0x2007, 0x2008, 0x2009, 0x200a, 0x2028, 0x2029, 0x202f, 0x205f, 0x3000]

def isBlank (c : Char) : Bool :=
  blankCodes.contains c.toNat

/-- The characters of a list without the trailing ones that satisfy `p`. -/
def dropTrailing (p : Char → Bool) (cs : List Char) : List Char :=
  (cs.reverse.dropWhile p).reverse

/-- The characters of a list without blanks at either end. -/
def trimChars (cs : List Char) : List Char :=
  dropTrailing isBlank (cs.dropWhile isBlank)

/-- A text without blanks at either end. -/
def trim (s : String) : String :=
  String.ofList (trimChars s.toList)

end FortranJulia.Text
