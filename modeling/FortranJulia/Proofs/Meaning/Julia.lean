import FortranJulia.Proofs.Meaning.Quantity
import FortranJulia.Token.Scan

/-!
Julia expressions as they are read. A text is cut into numbers, words and marks, and these are read
with the precedence of the language: `||` binds weakest, then `&&`, comparisons, sums, products,
signs and negations, and powers bind strongest. Operators group to the left but for powers, whose
right operand may have a sign. Two comparisons in a row are not read. Of functions, `div` cuts off
the quotient of integers, `float` makes a number a real, and `trunc` with the type `Int` makes it an
integer.
-/

namespace FortranJulia.Julia

set_option autoImplicit false

/-! ## Tokens -/

/-- Operators and punctuation. -/
inductive Sign where
  | or | and | eq | ne | lt | le | gt | ge | plus | minus | times | over | power | not
  | opening | closing | comma
  deriving DecidableEq, Repr

inductive Token where
  | number (value : Quantity)
  | word (text : List Char)
  | sign (s : Sign)
  deriving DecidableEq

/-- Letters, digits and underscores, and all characters beyond ASCII. -/
def isWordChar (c : Char) : Bool :=
  Scan.isWordChar c || 0x80 ≤ c.toNat

/-- The sign of one character. -/
def sign? : Char → Option Sign
  | '<' => some .lt
  | '>' => some .gt
  | '+' => some .plus
  | '-' => some .minus
  | '*' => some .times
  | '/' => some .over
  | '^' => some .power
  | '!' => some .not
  | '(' => some .opening
  | ')' => some .closing
  | ',' => some .comma
  | _ => none

/-- The sign of two characters. -/
def longSign? : Char → Char → Option Sign
  | '|', '|' => some .or
  | '&', '&' => some .and
  | '=', '=' => some .eq
  | '!', '=' => some .ne
  | '<', '=' => some .le
  | '>', '=' => some .ge
  | _, _ => none

/-- The number of digits and, with a point, a fraction. -/
def number? (cs : List Char) : Option Quantity :=
  let whole := cs.takeWhile Decimal.isDigit
  match cs.dropWhile Decimal.isDigit with
  | [] => some (.integer (Decimal.ofDigits whole))
  | '.' :: fraction =>
    if fraction.all Decimal.isDigit && !fraction.isEmpty then
      some (.real (Decimal.ofDigits (whole ++ fraction) / Nat.pow 10 fraction.length))
    else none
  | _ => none

/-- The token of a run of word characters; there is none for an empty run. -/
def finish : List Char → Option (List Token)
  | [] => some []
  | c :: cs =>
    if Decimal.isDigit c then (number? (c :: cs)).map ([.number ·]) else some [.word (c :: cs)]

/-- Does a character belong to the run of word characters before it? Numbers have points. -/
def continues (run : List Char) (c : Char) : Bool :=
  isWordChar c || (c == '.' && run.head?.any Decimal.isDigit)

/-- The tokens of a character that stands alone; a blank has none. -/
def single (c : Char) : Option (List Token) :=
  if c == ' ' then some [] else (sign? c).map ([.sign ·])

/-- The tokens of a text after a run of word characters. -/
def tokensFrom (run : List Char) : List Char → Option (List Token)
  | [] => finish run
  | [c] =>
    if continues run c then finish (run ++ [c])
    else (finish run).bind fun ts => (single c).map (ts ++ ·)
  | c :: d :: cs =>
    if continues run c then tokensFrom (run ++ [c]) (d :: cs)
    else
      (finish run).bind fun ts =>
        match longSign? c d with
        | some s => (tokensFrom [] cs).map (ts ++ .sign s :: ·)
        | none => (single c).bind fun us => (tokensFrom [] (d :: cs)).map (ts ++ us ++ ·)

/-! ## Terms -/

inductive Term where
  | literal (value : Quantity)
  | name (text : List Char)
  | unary (s : Sign) (body : Term)
  | binary (s : Sign) (left right : Term)
  /-- A call with one argument. -/
  | call (f : List Char) (a : Term)
  /-- A call with two arguments. -/
  | call₂ (f : List Char) (a b : Term)

namespace Sign

/-- The precedence of a binary operator. -/
def binding? : Sign → Option Nat
  | .or => some 0
  | .and => some 1
  | .eq | .ne | .lt | .le | .gt | .ge => some 2
  | .plus | .minus => some 3
  | .times | .over => some 4
  | .power => some 6
  | _ => none

/-- The level at which the right operand of a binary operator is read. Signs and negations are of
level 5, and an exponent may have them. -/
def rightLevel (s : Sign) (binding : Nat) : Nat :=
  if s = .power then 5 else binding + 1

def isComparison (s : Sign) : Bool :=
  s.binding? = some 2

/-- Can the sign stand in front of an operand? -/
def isUnary : Sign → Bool
  | .plus | .minus | .not => true
  | _ => false

end Sign

/-- The sign that comes next. -/
def nextSign : List Token → Option Sign
  | .sign s :: _ => some s
  | _ => none

mutual

/-- Reads a term in which no operator outside parentheses binds more weakly than a level. The depth
of the reading is bounded. -/
def read : Nat → Nat → List Token → Option (Term × List Token)
  | 0, _, _ => none
  | depth + 1, level, ts =>
    match ts with
    | .number q :: rest => extend depth level (.literal q) rest
    | .word f :: .sign .opening :: rest =>
      match read depth 0 rest with
      | some (a, .sign .closing :: rest) => extend depth level (.call f a) rest
      | some (a, .sign .comma :: rest) =>
        match read depth 0 rest with
        | some (b, .sign .closing :: rest) => extend depth level (.call₂ f a b) rest
        | _ => none
      | _ => none
    | .word x :: rest => extend depth level (.name x) rest
    | .sign .opening :: rest =>
      match read depth 0 rest with
      | some (a, .sign .closing :: rest) => extend depth level a rest
      | _ => none
    | .sign s :: rest =>
      if s.isUnary then
        (read depth 5 rest).bind fun (a, rest) => extend depth level (.unary s a) rest
      else none
    | [] => none

/-- Reads on after a left operand. -/
def extend : Nat → Nat → Term → List Token → Option (Term × List Token)
  | 0, _, _, _ => none
  | depth + 1, level, left, ts =>
    match ts with
    | .sign s :: rest =>
      match s.binding? with
      | some b =>
        if b < level then some (left, ts)
        else
          (read depth (s.rightLevel b) rest).bind fun (right, rest) =>
            if s.isComparison && (nextSign rest).any Sign.isComparison then none
            else extend depth level (.binary s left right) rest
      | none => some (left, ts)
    | _ => some (left, ts)

end

/-! ## Values -/

/-- The value of a sign in front of an operand. -/
def Sign.apply : Sign → Quantity → Option Quantity
  | .plus => Quantity.positive
  | .minus => Quantity.negative
  | .not => Quantity.opposite
  | _ => fun _ => none

/-- The value of an operator between operands that are both evaluated. The quotient of two numbers
is exact. -/
def Sign.operate (p : Powers) : Sign → Quantity → Quantity → Option Quantity
  | .plus => Quantity.plus
  | .minus => Quantity.minus
  | .times => Quantity.times
  | .over => fun a b => a.number?.bind fun x => b.number?.bind fun y => (Quantity.exact x y).map .real
  | .power => Quantity.power p
  | .eq => Quantity.compare (fun x y => x = y)
  | .ne => Quantity.compare (fun x y => x ≠ y)
  | .lt => Quantity.compare (fun x y => x < y)
  | .le => Quantity.compare (fun x y => x ≤ y)
  | .gt => Quantity.compare (fun x y => x > y)
  | .ge => Quantity.compare (fun x y => x ≥ y)
  | _ => fun _ _ => none

namespace Term

/-- The value of a term. The right operand of a logical operator counts only if the left one leaves
the answer open. -/
def value (p : Powers) (names : String → Quantity) : Term → Option Quantity
  | .literal q => some q
  | .name x =>
    if x = "true".toList then some (.logical true)
    else if x = "false".toList then some (.logical false)
    else some (names (String.ofList x))
  | .unary s a => (value p names a).bind s.apply
  | .binary .and a b =>
    match value p names a with
    | some (.logical true) => value p names b
    | some (.logical false) => some (.logical false)
    | _ => none
  | .binary .or a b =>
    match value p names a with
    | some (.logical true) => some (.logical true)
    | some (.logical false) => value p names b
    | _ => none
  | .binary s a b =>
    (value p names a).bind fun q => (value p names b).bind fun r => s.operate p q r
  | .call f a => if f = "float".toList then (value p names a).bind Quantity.toReal else none
  | .call₂ f a b =>
    if f = "div".toList then
      (value p names a).bind fun q => (value p names b).bind fun r =>
        match q, r with
        | .integer m, .integer n => (Quantity.cutOff m n).map .integer
        | _, _ => none
    else
      match a with
      | .name t =>
        if f = "trunc".toList ∧ t = "Int".toList then (value p names b).bind Quantity.toInteger
        else none
      | _ => none

end Term

/-- The value of a text. -/
def valueOf (p : Powers) (names : String → Quantity) (text : String) : Option Quantity :=
  (tokensFrom [] text.toList).bind fun ts =>
    match read (ts.length + 1) 0 ts with
    | some (t, []) => t.value p names
    | _ => none

end FortranJulia.Julia
