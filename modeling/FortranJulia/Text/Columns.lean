import FortranJulia.Text.Grapheme

/-!
The columns a text takes on a terminal. A letter takes one column; ideographs and most pictures
take two, marks and controls none, and a cluster of characters takes the columns of what is seen.
Escape sequences take none.
-/

namespace FortranJulia.Text

set_option autoImplicit false

/-! ## Characters -/

/-- Characters of two columns. -/
def wideRanges : List (Nat × Nat) :=
  [(0x1100, 0x115f), (0x231a, 0x231b), (0x2329, 0x232a), (0x23e9, 0x23ec), (0x23f0, 0x23f0),
   (0x23f3, 0x23f3), (0x25fd, 0x25fe), (0x2614, 0x2615), (0x2648, 0x2653), (0x267f, 0x267f),
   (0x2693, 0x2693), (0x26a1, 0x26a1), (0x26aa, 0x26ab), (0x26bd, 0x26be), (0x26c4, 0x26c5),
   (0x26ce, 0x26ce), (0x26d4, 0x26d4), (0x26ea, 0x26ea), (0x26f2, 0x26f3), (0x26f5, 0x26f5),
   (0x26fa, 0x26fa), (0x26fd, 0x26fd), (0x2705, 0x2705), (0x270a, 0x270b), (0x2728, 0x2728),
   (0x274c, 0x274c), (0x274e, 0x274e), (0x2753, 0x2755), (0x2757, 0x2757), (0x2795, 0x2797),
   (0x27b0, 0x27b0), (0x27bf, 0x27bf), (0x2b1b, 0x2b1c), (0x2b50, 0x2b50), (0x2b55, 0x2b55),
   (0x2e80, 0x2e99), (0x2e9b, 0x2ef3), (0x2f00, 0x2fd5), (0x2ff0, 0x2ffb), (0x3000, 0x303e),
   (0x3041, 0x3096), (0x3099, 0x30ff), (0x3105, 0x312f), (0x3131, 0x318e), (0x3190, 0x31e3),
   (0x31f0, 0x321e), (0x3220, 0x3247), (0x3250, 0x4dbf), (0x4e00, 0xa48c), (0xa490, 0xa4c6),
   (0xa960, 0xa97c), (0xac00, 0xd7a3), (0xf900, 0xfaff), (0xfe10, 0xfe19), (0xfe30, 0xfe52),
   (0xfe54, 0xfe66), (0xfe68, 0xfe6b), (0xff01, 0xff60), (0xffe0, 0xffe6), (0x16fe0, 0x16fe4),
   (0x16ff0, 0x16ff1), (0x17000, 0x187f7), (0x18800, 0x18cd5), (0x18d00, 0x18d08),
   (0x1aff0, 0x1aff3), (0x1aff5, 0x1affb), (0x1affd, 0x1affe), (0x1b000, 0x1b122),
   (0x1b132, 0x1b132), (0x1b150, 0x1b152), (0x1b155, 0x1b155), (0x1b164, 0x1b167),
   (0x1b170, 0x1b2fb), (0x1f004, 0x1f004), (0x1f0cf, 0x1f0cf), (0x1f18e, 0x1f18e),
   (0x1f191, 0x1f19a), (0x1f200, 0x1f202), (0x1f210, 0x1f23b), (0x1f240, 0x1f248),
   (0x1f250, 0x1f251), (0x1f260, 0x1f265), (0x1f300, 0x1f320), (0x1f32d, 0x1f335),
   (0x1f337, 0x1f37c), (0x1f37e, 0x1f393), (0x1f3a0, 0x1f3ca), (0x1f3cf, 0x1f3d3),
   (0x1f3e0, 0x1f3f0), (0x1f3f4, 0x1f3f4), (0x1f3f8, 0x1f43e), (0x1f440, 0x1f440),
   (0x1f442, 0x1f4fc), (0x1f4ff, 0x1f53d), (0x1f54b, 0x1f54e), (0x1f550, 0x1f567),
   (0x1f57a, 0x1f57a), (0x1f595, 0x1f596), (0x1f5a4, 0x1f5a4), (0x1f5fb, 0x1f64f),
   (0x1f680, 0x1f6c5), (0x1f6cc, 0x1f6cc), (0x1f6d0, 0x1f6d2), (0x1f6d5, 0x1f6d7),
   (0x1f6dc, 0x1f6df), (0x1f6eb, 0x1f6ec), (0x1f6f4, 0x1f6fc), (0x1f7e0, 0x1f7eb),
   (0x1f7f0, 0x1f7f0), (0x1f90c, 0x1f93a), (0x1f93c, 0x1f945), (0x1f947, 0x1f9ff),
   (0x1fa70, 0x1fa7c), (0x1fa80, 0x1fa88), (0x1fa90, 0x1fabd), (0x1fabf, 0x1fac5),
   (0x1face, 0x1fadb), (0x1fae0, 0x1fae8), (0x1faf0, 0x1faf8), (0x20000, 0x2fffd),
   (0x30000, 0x3fffd)]

/-- Pictures that are shown in colour, on two columns, if nothing else is asked for. -/
def emojiRanges : List (Nat × Nat) :=
  [(0x231a, 0x231b), (0x23e9, 0x23ec), (0x23f0, 0x23f0), (0x23f3, 0x23f3), (0x25fd, 0x25fe),
   (0x2614, 0x2615), (0x2648, 0x2653), (0x267f, 0x267f), (0x2693, 0x2693), (0x26a1, 0x26a1),
   (0x26aa, 0x26ab), (0x26bd, 0x26be), (0x26c4, 0x26c5), (0x26ce, 0x26ce), (0x26d4, 0x26d4),
   (0x26ea, 0x26ea), (0x26f2, 0x26f3), (0x26f5, 0x26f5), (0x26fa, 0x26fa), (0x26fd, 0x26fd),
   (0x2705, 0x2705), (0x270a, 0x270b), (0x2728, 0x2728), (0x274c, 0x274c), (0x274e, 0x274e),
   (0x2753, 0x2755), (0x2757, 0x2757), (0x2795, 0x2797), (0x27b0, 0x27b0), (0x27bf, 0x27bf),
   (0x2b1b, 0x2b1c), (0x2b50, 0x2b50), (0x2b55, 0x2b55), (0x1f004, 0x1f004), (0x1f0cf, 0x1f0cf),
   (0x1f18e, 0x1f18e), (0x1f191, 0x1f19a), (0x1f1e6, 0x1f1ff), (0x1f201, 0x1f201),
   (0x1f21a, 0x1f21a), (0x1f22f, 0x1f22f), (0x1f232, 0x1f236), (0x1f238, 0x1f23a),
   (0x1f250, 0x1f251), (0x1f300, 0x1f320), (0x1f32d, 0x1f335), (0x1f337, 0x1f37c),
   (0x1f37e, 0x1f393), (0x1f3a0, 0x1f3ca), (0x1f3cf, 0x1f3d3), (0x1f3e0, 0x1f3f0),
   (0x1f3f4, 0x1f3f4), (0x1f3f8, 0x1f43e), (0x1f440, 0x1f440), (0x1f442, 0x1f4fc),
   (0x1f4ff, 0x1f53d), (0x1f54b, 0x1f54e), (0x1f550, 0x1f567), (0x1f57a, 0x1f57a),
   (0x1f595, 0x1f596), (0x1f5a4, 0x1f5a4), (0x1f5fb, 0x1f64f), (0x1f680, 0x1f6c5),
   (0x1f6cc, 0x1f6cc), (0x1f6d0, 0x1f6d2), (0x1f6d5, 0x1f6d7), (0x1f6dc, 0x1f6df),
   (0x1f6eb, 0x1f6ec), (0x1f6f4, 0x1f6fc), (0x1f7e0, 0x1f7eb), (0x1f7f0, 0x1f7f0),
   (0x1f90c, 0x1f93a), (0x1f93c, 0x1f945), (0x1f947, 0x1f9ff), (0x1fa70, 0x1fa7c),
   (0x1fa80, 0x1fa88), (0x1fa90, 0x1fabd), (0x1fabf, 0x1fac5), (0x1face, 0x1fadb),
   (0x1fae0, 0x1fae8), (0x1faf0, 0x1faf8)]

def charColumns (c : Char) : Nat :=
  match graphemeClass c with
  | .control | .extend | .joiner => 0
  | .regional => 2
  | .pictograph => if within emojiRanges c.toNat then 2 else 1
  | _ =>
    if c.toNat == 0x2e3a then 3
    else if c.toNat == 0x2e3b then 4
    else if within wideRanges c.toNat then 2
    else 1

/-! ## Clusters -/

/-- A cluster that may go on: the class of its first character, what it leaves open and the columns
it takes so far. -/
structure Cluster where
  first : GraphemeClass
  joint : Joint
  columns : Nat
  deriving DecidableEq, Repr

namespace Cluster

def ofChar (c : Char) : Cluster :=
  ⟨graphemeClass c, .start (graphemeClass c), charColumns c⟩

/-- The columns with one more character. A picture is as wide as the selectors after it say, and
flags and syllables are as wide as their first character. -/
def columnsWith (k : Cluster) (c : Char) : Nat :=
  match k.first with
  | .pictograph => if c.toNat == 0xfe0e then 1 else if c.toNat == 0xfe0f then 2 else k.columns
  | .regional | .syllableLead => k.columns
  | _ => k.columns + charColumns c

/-- The cluster with one more character, if that belongs to it. -/
def push? (k : Cluster) (c : Char) : Option Cluster :=
  (k.joint.next? (graphemeClass c)).map fun j => ⟨k.first, j, k.columnsWith c⟩

end Cluster

/-! ## Texts -/

/-- What the next character of a text is part of: the text itself, where a cluster may be open, or
an escape sequence. -/
inductive Expecting where
  | text (cluster : Option Cluster)
  | escape
  | intermediate
  | parameters
  | string (bell : Bool)
  deriving DecidableEq, Repr

namespace Expecting

/-- What follows an ASCII character that belongs to no cluster. Strings in escape sequences end
with the next escape, some also with a bell. -/
def afterAscii (e : Expecting) (c : Char) : Expecting :=
  let n := c.toNat
  if n == 0x1b then .escape
  else if n == 0x18 || n == 0x1a then .text none
  else
    match e with
    | .text _ => .text none
    | .escape =>
      if c == '[' then .parameters
      else if c == ']' then .string true
      else if ['P', 'X', '^', '_'].contains c then .string false
      else if n < 0x20 || n == 0x7f then .escape
      else if n < 0x30 then .intermediate
      else .text none
    | .intermediate => if n < 0x30 || n == 0x7f then .intermediate else .text none
    | .parameters => if n < 0x40 || n == 0x7f then .parameters else .text none
    | .string bell => if bell && n == 0x07 then .text none else .string bell

end Expecting

/-- A place in a line: the columns of what is complete, and what comes next. -/
structure Cursor where
  column : Nat := 0
  expecting : Expecting := .text none
  deriving DecidableEq, Repr

namespace Cursor

def cluster? (k : Cursor) : Option Cluster :=
  match k.expecting with
  | .text g => g
  | _ => none

def inText (k : Cursor) : Bool :=
  match k.expecting with
  | .text _ => true
  | _ => false

/-- The columns up to here. -/
def columns (k : Cursor) : Nat :=
  k.column + (k.cluster?.map Cluster.columns).getD 0

def push (k : Cursor) (c : Char) : Cursor :=
  match k.cluster?.bind (·.push? c) with
  | some g => { k with expecting := .text (some g) }
  | none =>
    if c.toNat < 0x80 then
      let printed := k.inText && 0x20 ≤ c.toNat && c.toNat < 0x7f
      ⟨k.columns + (if printed then 1 else 0), k.expecting.afterAscii c⟩
    else
      match k.expecting with
      | .string bell => ⟨k.columns, .string bell⟩
      | _ => ⟨k.columns, .text (some (.ofChar c))⟩

end Cursor

/-- The columns of a line. -/
def columns (s : String) : Nat :=
  (s.toList.foldl Cursor.push {}).columns

/-! ## Blocks of lines -/

def expandTabs (cs : List Char) : List Char :=
  cs.flatMap fun c => if c == '\t' then List.replicate 4 ' ' else [c]

/-- Every line end as one character. -/
def plainLineEnds : List Char → List Char
  | '\r' :: '\n' :: cs => '\n' :: plainLineEnds cs
  | c :: cs => c :: plainLineEnds cs
  | [] => []

/-- A line with blanks up to a width. -/
def padded (width : Nat) (line : String) : String :=
  line ++ String.ofList (List.replicate (width - columns line) ' ')

/-- A text as a block: tabs are four blanks, and if there is more than one line, all are as wide as
the widest. -/
def block (s : String) : String :=
  match (String.ofList (plainLineEnds (expandTabs s.toList))).splitOn "\n" with
  | [line] => line
  | lines =>
    let width := (lines.map columns).foldl max 0
    "\n".intercalate (lines.map (padded width))

end FortranJulia.Text
