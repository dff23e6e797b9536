import FortranJulia.Decimal.Reading
import FortranJulia.Files.Host
import FortranJulia.Golden.Document
import FortranJulia.Text.Quoted

/-!
Golden cases in a document: a heading names each case, and the code after it is the source, the
program expected for it, and the rules of the diagnostics expected.
-/

namespace FortranJulia.Golden

set_option autoImplicit false

structure Case where
  name : String
  /-- The line of the heading. -/
  line : Nat
  fortran : String := ""
  julia : String := ""
  /-- The rules expected, if the case lists them. -/
  diagnostics : Option (List String) := none
  deriving DecidableEq, Repr

inductive CaseError where
  | outside (line : Nat) (language : String)
  | secondSource (line : Nat) (name : String)
  | unknownLanguage (line : Nat) (language name : String)
  | noSource (line : Nat) (name : String)
  deriving DecidableEq, Repr

namespace CaseError

def message (e : CaseError) : String :=
  let at_ (line : Nat) : String := "line " ++ Decimal.digits line ++ ": "
  match e with
  | .outside n l => at_ n ++ l ++ " fence outside of a test"
  | .secondSource n name => at_ n ++ "second fortran fence in test " ++ Text.quoted name
  | .unknownLanguage n l name =>
    at_ n ++ "unknown fence language " ++ Text.quoted l ++ " in test " ++ Text.quoted name
  | .noSource n name => at_ n ++ "test " ++ Text.quoted name ++ " has no fortran fence"

end CaseError

/-- The name of the case that a heading starts. -/
def caseName? (heading : String) : Option String :=
  match heading.toList with
  | 'T' :: 'e' :: 's' :: 't' :: ':' :: ' ' :: name => some (Text.trim (String.ofList name))
  | _ => none

/-- The rules listed in code, one on each line. -/
def rulesOf (code : String) : List String :=
  ((code.splitOn "\n").map Text.trim).filter (· != "")

/-- Adds code to a case by its language. Further rules are added to those before. -/
def Case.add (c : Case) (line : Nat) (language code : String) : Except CaseError Case :=
  match language with
  | "fortran" =>
    if c.fortran == "" then .ok { c with fortran := code }
    else .error (.secondSource line c.name)
  | "julia" => .ok { c with julia := code }
  | "diagnostics" => .ok { c with diagnostics := some (c.diagnostics.getD [] ++ rulesOf code) }
  | _ => .error (.unknownLanguage line language c.name)

/-- A case that is complete, if one is at hand. -/
def finished : Option Case → Except CaseError (List Case)
  | none => .ok []
  | some c => if c.fortran == "" then .error (.noSource c.line c.name) else .ok [c]

/-- The cases of blocks after the case at hand. Code without a language belongs to no case. -/
def casesFrom (current : Option Case) : List Block → Except CaseError (List Case)
  | [] => finished current
  | .heading line text :: rest =>
    match caseName? text with
    | none => casesFrom current rest
    | some name => do
      let done ← finished current
      return done ++ (← casesFrom (some { name, line }) rest)
  | .fence line language code :: rest =>
    if language == "" then casesFrom current rest
    else
      match current with
      | none => .error (.outside line language)
      | some c => do casesFrom (some (← c.add line language code)) rest

/-- The cases of a document in order. -/
def cases (document : String) : Except CaseError (List Case) :=
  casesFrom none (blocks document)

inductive LoadError where
  | unreadable (e : FileError)
  | faulty (path : String) (e : CaseError)

def LoadError.message : LoadError → String
  | .unreadable e => e.message
  | .faulty path e => path ++ ": " ++ e.message

/-- The cases of the document at a path. -/
def load {m : Type → Type} [Monad m] [Host m] (path : String) :
    m (Except LoadError (List Case)) := do
  match ← Host.read (m := m) path with
  | .error e => return .error (.unreadable e)
  | .ok document => return (cases document).mapError (.faulty path)

end FortranJulia.Golden
