import DeclSchema.Command.Run

/-! # The program

Reads the files that a command line may need, runs the command on them, and carries out what
it answers.
-/
namespace DeclSchema
open Command Text

def readNames (userSettings : Option String) : Request → List String
  | .run invocation =>
    let sources := usualPlaces ++ userSettings.toList ++ invocation.settingsFile.toList
    let input := match invocation.task with
      | .generate file _ _ _ _ | .graph file _ => [file]
      | .settings _ _ => []
    sources ++ sources.filterMap withTomlEnding? ++ input
  | _ => []

def faultOf : IO.Error → FileFault
  | .noFileOrDirectory .. => .missing
  | error =>
    let message := (toString error).toLower
    if message.contains "not a directory" then .notFolder
    else if message.contains "is a directory" then .isFolder
    else .missing

def readFile (name : String) : IO (Except FileFault ByteArray) := do
  try
    return .ok (← IO.FS.readBinFile name)
  catch error => return .error (faultOf error)

def writeFile (name text : String) : IO (Option FileFault) := do
  try
    IO.FS.writeFile name text
    return none
  catch error => return some (faultOf error)

def userSettings : IO (Option String) := do
  match ← IO.getEnv "XDG_CONFIG_HOME", ← IO.getEnv "HOME" with
  | some folder, _ => return some (folder ++ "/ts-openapi/tsoas.toml")
  | none, some home => return some (home ++ "/.config/ts-openapi/tsoas.toml")
  | none, none => return none

def variablesOf (block : ByteArray) : List (String × String) :=
  (splitOn '\x00' (lenientText block).toList).filterMap fun entry =>
    (afterHead? ['='] (entry.dropWhile (· != '='))).map fun value =>
      (String.ofList (entry.takeWhile (· != '=')), String.ofList value)

def environment : IO (List (String × String)) := do
  match ← readFile "/proc/self/environ" with
  | .ok block => return variablesOf block
  | .error _ => return []

/-- Runs the command. The file is written last; if that fails, the run is one in which it
could not be written. -/
def carryOut (around : Surroundings) (arguments : List String) : IO Outcome := do
  let outcome := run around arguments
  match outcome.written with
  | none => return outcome
  | some (name, text) =>
    match ← writeFile name text with
    | none => return outcome
    | some fault =>
      let files := { around.files with hindrance := fun _ => some fault }
      return run { around with files } arguments

end DeclSchema

open DeclSchema DeclSchema.Command

def main (arguments : List String) : IO UInt32 := do
  let user ← userSettings
  let names := readNames user (Request.ofArguments arguments)
  let contents ← names.mapM fun name => return (name, ← readFile name)
  let files : Files :=
    { read := fun name => (contents.lookup name).getD (.error .missing)
      hindrance := fun _ => none }
  let outcome ← carryOut ⟨files, ← environment, user⟩ arguments
  IO.print outcome.output
  IO.eprint outcome.messages
  return outcome.code.toUInt32
