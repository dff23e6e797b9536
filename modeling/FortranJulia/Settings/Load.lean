import FortranJulia.Files.Host
import FortranJulia.Intrinsic.Support
import FortranJulia.Settings.Level
import FortranJulia.Settings.Yaml
import FortranJulia.Text.Expansion

/-!
The settings of the program, read from a TOML or YAML file. Settings that a file leaves out, or
leaves empty, have their usual values.
-/

namespace FortranJulia

set_option autoImplicit false

structure Settings where
  /-- Where the program goes; empty for the directory of the source. -/
  outputDirectory : String := ""
  supportFile : String := ""
  indent : String := ""
  extension : String := ""
  strict : Bool := false
  level : String := ""
  logFormat : String := ""
  /-- The path of the report; empty for none. -/
  reportPath : String := ""
  deriving DecidableEq, Repr

inductive SettingsError where
  | notFound (path : String)
  | unreadable (e : FileError)
  /-- The file is no document, or has a value of the wrong kind. -/
  | malformed
  | level (e : LevelError)
  | logFormat (name : String)
  | supportPath (name : String)

namespace SettingsError

def message : SettingsError → String
  | .notFound path => "config file not found: " ++ path
  | .unreadable e => "failed to read config: " ++ e.message
  | .malformed => "failed to parse config"
  | .level e => e.message
  | .logFormat s => "invalid log format " ++ Text.quoted s ++ ", want text or json"
  | .supportPath s =>
    "macros file " ++ Text.quoted s ++ " must be a file name, not a path"

end SettingsError

namespace Settings

/-! ## Documents -/

/-- The value of a key, by its exact name if there is one, else by a name of the same letters. -/
def field? (anyCase : Bool) (fields : List (String × Value)) (key : String) : Option Value :=
  match fields.lookup key with
  | some v => some v
  | none =>
    if anyCase then (fields.find? fun f => Text.foldedEq f.1 key).map (·.2) else none

/-- The text of a key, empty if there is none. -/
def textField (anyCase : Bool) (fields : List (String × Value)) (key : String) :
    Except Mismatch String :=
  match field? anyCase fields key with
  | none => .ok ""
  | some v => return (← v.asText).getD ""

def truthField (anyCase : Bool) (fields : List (String × Value)) (key : String) :
    Except Mismatch Bool :=
  match field? anyCase fields key with
  | none => .ok false
  | some v => return (← v.asTruth).getD false

def tableField (anyCase : Bool) (fields : List (String × Value)) (key : String) :
    Except Mismatch (List (String × Value)) :=
  match field? anyCase fields key with
  | none => .ok []
  | some v => v.asTable

/-- The settings in a document. Other keys are of no account. -/
def ofFields (anyCase : Bool) (fields : List (String × Value)) : Except Mismatch Settings := do
  let log ← tableField anyCase fields "log"
  let report ← tableField anyCase fields "report"
  return {
    outputDirectory := ← textField anyCase fields "output_dir"
    supportFile := ← textField anyCase fields "macros_file"
    indent := ← textField anyCase fields "indent"
    extension := ← textField anyCase fields "extension"
    strict := ← truthField anyCase fields "strict"
    level := ← textField anyCase log "level"
    logFormat := ← textField anyCase log "format"
    reportPath := ← textField anyCase report "path" }

def ofToml (document : String) : Except SettingsError Settings :=
  match Toml.read? document with
  | none => .error .malformed
  | some fields => (ofFields true fields).mapError fun _ => .malformed

def ofYaml (document : String) : Except SettingsError Settings :=
  match Yaml.read? document with
  | none => .error .malformed
  | some v => (v.asTable >>= ofFields false).mapError fun _ => .malformed

/-! ## Usual values -/

/-- The first text, or the second if the first is empty. -/
def orElse (s t : String) : String :=
  if s == "" then t else s

/-- An extension starts with a dot. -/
def dotted (extension : String) : String :=
  if extension.toList.head? == some '.' then extension else "." ++ extension

def withDefaults (s : Settings) : Settings :=
  { s with
    supportFile := orElse s.supportFile Intrinsic.supportFile
    indent := orElse s.indent "\t"
    extension := dotted (orElse s.extension ".jl")
    level := orElse s.level "info"
    logFormat := orElse s.logFormat "text" }

/-- The settings without a file. -/
def default : Settings :=
  withDefaults {}

/-- Settings that have only a few choices are checked in this order. -/
def check (s : Settings) : Except SettingsError Unit := do
  let _ ← (Level.read s.level).mapError .level
  if ["text", "json"].all (· != s.logFormat) then throw (.logFormat s.logFormat)
  if s.supportFile.toList.any fun c => c == '/' || c == '\\' then
    throw (.supportPath s.supportFile)

/-! ## Files -/

def isYaml (path : String) : Bool :=
  [".yaml", ".yml"].contains (Path.extension path).toLower

/-- The settings in a file. A TOML file that cannot be read is malformed. -/
def ofFile {m : Type → Type} [Monad m] [Host m] (path : String) :
    m (Except SettingsError Settings) := do
  let content ← Host.read (m := m) path
  if isYaml path then return content.mapError .unreadable >>= ofYaml
  else return content.mapError (fun _ => .malformed) >>= ofToml

/-- The settings in the file at a path, with environment variables expanded in the path and in the
paths it sets. -/
def load {m : Type → Type} [Monad m] [Host m] (path : String) :
    m (Except SettingsError Settings) := do
  let path ← Text.expand (Host.getVariable (m := m)) path
  if ← Host.isMissing (m := m) path then return .error (.notFound path)
  match ← ofFile (m := m) path with
  | .error e => return .error e
  | .ok s =>
    let s := s.withDefaults
    let directory ← Text.expand (Host.getVariable (m := m)) s.outputDirectory
    let report ← Text.expand (Host.getVariable (m := m)) s.reportPath
    let s := { s with outputDirectory := directory, reportPath := report }
    return s.check.map fun _ => s

end Settings

end FortranJulia
