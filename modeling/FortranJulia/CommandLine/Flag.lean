import FortranJulia.Text.Quoted

/-!
Flags of a command line. A flag has a long name and perhaps a letter; switches are set by their
mere presence, other flags take a value. Flags and arguments may be mixed, and a double dash ends
the flags.
-/

namespace FortranJulia.CommandLine

set_option autoImplicit false

/-! ## Flags -/

inductive Flag where
  | config
  | dump
  | filter
  | help
  | out
  | report
  | strict
  | type
  | verbose
  deriving DecidableEq, Repr

namespace Flag

/-- All flags in the order of their names. -/
def all : List Flag :=
  [.config, .dump, .filter, .help, .out, .report, .strict, .type, .verbose]

def long : Flag → String
  | .config => "config"
  | .dump => "dump"
  | .filter => "filter"
  | .help => "help"
  | .out => "out"
  | .report => "report"
  | .strict => "strict"
  | .type => "type"
  | .verbose => "verbose"

def short? : Flag → Option Char
  | .help => some 'h'
  | .out => some 'o'
  | .verbose => some 'v'
  | _ => none

def isSwitch : Flag → Bool
  | .dump | .help | .strict | .verbose => true
  | _ => false

end Flag

/-! ## Values -/

/-- The values of the flags. -/
structure Values where
  config : String := ""
  out : String := ""
  report : String := ""
  filter : String := ""
  type : String := ""
  strict : Bool := false
  verbose : Bool := false
  dump : Bool := false
  help : Bool := false

inductive FlagError where
  | badName (word : String)
  | unknown (name : String)
  | unknownLetter (letter : Char) (group : String)
  | noValue (word : String)
  | noLetterValue (letter : Char) (group : String)
  | badTruth (flag : Flag) (value : String)
  deriving DecidableEq, Repr

namespace FlagError

/-- A letter between single quotes. -/
def letterText (c : Char) : String :=
  String.ofList ('\'' :: (if c == '\'' then ['\\', c] else if c == '"' then [c]
    else Text.escapeChar c) ++ ['\''])

/-- A flag by its letter, if it has one, and its name. -/
def flagText (f : Flag) : String :=
  (match f.short? with
   | some c => "-" ++ String.singleton c ++ ", "
   | none => "") ++ "--" ++ f.long

def message : FlagError → String
  | .badName w => "bad flag syntax: " ++ w
  | .unknown n => "unknown flag: --" ++ n
  | .unknownLetter c g => "unknown shorthand flag: " ++ letterText c ++ " in -" ++ g
  | .noValue w => "flag needs an argument: " ++ w
  | .noLetterValue c g => "flag needs an argument: " ++ letterText c ++ " in -" ++ g
  | .badTruth f v =>
    "invalid argument " ++ Text.quoted v ++ " for " ++ Text.quoted (flagText f) ++
      " flag: strconv.ParseBool: parsing " ++ Text.quoted v ++ ": invalid syntax"

end FlagError

/-- The truth values that a switch may be given. -/
def truth? (s : String) : Option Bool :=
  if ["1", "t", "T", "TRUE", "true", "True"].contains s then some true
  else if ["0", "f", "F", "FALSE", "false", "False"].contains s then some false
  else none

namespace Values

def setSwitch (v : Values) (f : Flag) (b : Bool) : Values :=
  match f with
  | .strict => { v with strict := b }
  | .verbose => { v with verbose := b }
  | .dump => { v with dump := b }
  | .help => { v with help := b }
  | _ => v

def setText (v : Values) (f : Flag) (s : String) : Values :=
  match f with
  | .config => { v with config := s }
  | .out => { v with out := s }
  | .report => { v with report := s }
  | .filter => { v with filter := s }
  | .type => { v with type := s }
  | _ => v

/-- Gives a flag a value; the last value of a flag counts. -/
def set (v : Values) (f : Flag) (s : String) : Except FlagError Values :=
  if f.isSwitch then
    match truth? s with
    | some b => .ok (v.setSwitch f b)
    | none => .error (.badTruth f s)
  else .ok (v.setText f s)

end Values

/-! ## Words -/

def isFlagWord (word : List Char) : Bool :=
  match word with
  | '-' :: _ :: _ => true
  | _ => false

/-- The first byte of a letter as a character of its own. -/
def leadingByte (c : Char) : Char :=
  match (String.singleton c).toUTF8.toList with
  | b :: _ => Char.ofNat b.toNat
  | [] => c

/-- A word with a long name, after its dashes, and the words after it. -/
def longWord (known : List Flag) (v : Values) (word : List Char) (rest : List String) :
    Except FlagError (Values × List String) :=
  let body := word.drop 2
  let name := body.takeWhile (· != '=')
  if name.head?.all (· == '-') then .error (.badName (String.ofList word))
  else
    match known.find? (·.long.toList == name) with
    | none => .error (.unknown (String.ofList name))
    | some f =>
      match body.drop name.length with
      | _ :: value => (v.set f (String.ofList value)).map (·, rest)
      | [] =>
        if f.isSwitch then (v.set f "true").map (·, rest)
        else
          match rest with
          | value :: rest => (v.set f value).map (·, rest)
          | [] => .error (.noValue (String.ofList word))

/-- The front of a group of letters that is addressed to a test run. -/
def testMark : List Char :=
  "test.".toList

/-- A group of letters after a dash and the words after it. The letters up to the first flag with
a value are switches; a value follows its letter at once or is the next word. What is addressed to
a test run is passed over. -/
def letters (known : List Flag) (v : Values) (rest : List String) :
    List Char → Except FlagError (Values × List String)
  | [] => .ok (v, rest)
  | c :: group =>
    let text := String.ofList (c :: group)
    if testMark.isPrefixOf (c :: group) then .ok (v, rest)
    else
      match known.find? (·.short? == some c) with
      | none => .error (.unknownLetter (leadingByte c) text)
      | some f =>
        match group with
        | '=' :: d :: value => (v.set f (String.ofList (d :: value))).map (·, rest)
        | _ =>
          if f.isSwitch then do letters known (← v.set f "true") rest group
          else if !group.isEmpty then (v.set f (String.ofList group)).map (·, rest)
          else
            match rest with
            | value :: rest => (v.set f value).map (·, rest)
            | [] => .error (.noLetterValue c text)

/-- The values of the flags and the arguments among some words. Each step takes a word. -/
def parseWords (known : List Flag) : Nat → Values → List String →
    Except FlagError (Values × List String)
  | 0, v, ws => .ok (v, ws)
  | _ + 1, v, [] => .ok (v, [])
  | fuel + 1, v, w :: ws =>
    let word := w.toList
    if !isFlagWord word then do
      let (v, args) ← parseWords known fuel v ws
      return (v, w :: args)
    else if w == "--" then .ok (v, ws)
    else do
      let (v, ws) ←
        if word.take 2 == ['-', '-'] then longWord known v word ws
        else letters known v ws (word.drop 1)
      parseWords known fuel v ws

def parseFlags (known : List Flag) (words : List String) :
    Except FlagError (Values × List String) :=
  parseWords known words.length {} words

end FortranJulia.CommandLine
