import DeclSchema.Text.Chars

/-! # Command lines

A command line names one of three commands after options that hold for all of them. Options
have long names and some also a letter; a value follows as the next word, after an equals
sign or, behind a letter, directly. Two dashes alone end the options.
-/
namespace DeclSchema.Command
open Text

inductive Task
  /-- Write the schemas of a source, of one definition only if its name is given. -/
  | generate (file : String) (name output : Option String) (compact components : Bool)
  /-- Write the graph of the references in a source. -/
  | graph (file : String) (output : Option String)
  /-- Show the settings, or write the default settings to a file. -/
  | settings (display : Bool) (target : Option String)
deriving Repr, DecidableEq

def Task.target? : Task → Option String
  | generate _ _ output _ _ | graph _ output => output
  | settings _ target => target

structure Invocation where
  settingsFile : Option String
  task : Task
deriving Repr, DecidableEq

inductive Request
  | run (invocation : Invocation)
  | help
  | misuse
deriving Repr, DecidableEq

inductive Switch
  | config
  | name
  | output
  | compact
  | components
  | display
  | target
deriving Repr, DecidableEq

namespace Switch

def long : Switch → String
  | config => "config"
  | name => "name"
  | output => "output"
  | compact => "compact"
  | components => "components"
  | display => "show"
  | target => "init"

def letter? : Switch → Option Char
  | config => some 'c'
  | name => some 'n'
  | output => some 'o'
  | _ => none

def takesValue : Switch → Bool
  | config | name | output | target => true
  | _ => false

def admits : Switch → String → Bool
  | config, value | output, value | target, value => !value.isEmpty
  | _, _ => true

end Switch

structure Given where
  options : List (Switch × String) := []
  words : List String := []

def Given.value? (given : Given) (switch : Switch) : Option String :=
  (given.options.find? fun entry => entry.1 == switch).map Prod.snd

def Given.has (given : Given) (switch : Switch) : Bool := (given.value? switch).isSome

def Given.add? (given : Given) (switch : Switch) (value : String) : Option Given :=
  if given.has switch || !switch.admits value then none
  else some { given with options := (switch, value) :: given.options }

inductive Word
  | plain
  /-- From here on all words are plain. -/
  | endOfOptions
  | help
  /-- An option, with its value if it stands in the same word. -/
  | option (switch : Switch) (value : Option String)
  | unknown

def Word.ofLong (allowed : List Switch) (s : List Char) : Word :=
  let name := String.ofList (s.takeWhile (· != '='))
  let value := (afterHead? ['='] (s.dropWhile (· != '='))).map String.ofList
  match allowed.find? fun switch => switch.long == name with
  | some switch => option switch value
  | none => if name == "help" && value.isNone then help else unknown

def Word.ofLetter (allowed : List Switch) (c : Char) (rest : List Char) : Word :=
  match allowed.find? fun switch => switch.letter? == some c with
  | some switch =>
    if rest.isEmpty then option switch none
    else option switch (some (String.ofList ((afterHead? ['='] rest).getD rest)))
  | none => if c == 'h' then help else unknown

def Word.of (allowed : List Switch) (word : String) : Word :=
  match word.toList with
  | ['-', '-'] => endOfOptions
  | '-' :: '-' :: rest => ofLong allowed rest
  | '-' :: c :: rest => ofLetter allowed c rest
  | _ => plain

def isValue (word : String) : Bool :=
  match word.toList with
  | '-' :: _ :: _ => false
  | _ => true

inductive Parsed (α : Type)
  | ok (result : α)
  | help
  | misuse

def readWords (allowed : List Switch) : List String → Given → Parsed Given
  | [], given => .ok given
  | word :: rest, given =>
    match Word.of allowed word with
    | .plain => readWords allowed rest { given with words := given.words ++ [word] }
    | .endOfOptions => .ok { given with words := given.words ++ rest }
    | .help => .help
    | .unknown => .misuse
    | .option switch value =>
      if switch.takesValue then
        match value, rest with
        | some value, rest =>
          match given.add? switch value with
          | some given => readWords allowed rest given
          | none => .misuse
        | none, next :: rest =>
          if isValue next then
            match given.add? switch next with
            | some given => readWords allowed rest given
            | none => .misuse
          else .misuse
        | none, [] => .misuse
      else if value.isSome then .misuse
      else
        match given.add? switch "" with
        | some given => readWords allowed rest given
        | none => .misuse

inductive Verb
  | generate
  | graph
  | settings
deriving Repr, DecidableEq

def Verb.ofName? (s : String) : Option Verb :=
  match s with
  | "generate" => some .generate
  | "graph" => some .graph
  | "config" => some .settings
  | _ => none

def Verb.switches : Verb → List Switch
  | generate => [.config, .name, .output, .compact, .components]
  | graph => [.config, .output]
  | settings => [.config, .display, .target]

def Verb.task? (verb : Verb) (given : Given) : Option Task :=
  match verb, given.words with
  | .generate, [file] =>
    if file.isEmpty then none
    else some (.generate file (given.value? .name) (given.value? .output) (given.has .compact)
      (given.has .components))
  | .graph, [file] => if file.isEmpty then none else some (.graph file (given.value? .output))
  | .settings, [] =>
    if given.has .display && given.has .target then none
    else some (.settings (given.has .display) (given.value? .target))
  | _, _ => none

/-- Reads the words after the name of a command. A settings file named here counts more than
one named before. -/
def requestOf (verb : Verb) (before : Option String) (rest : List String) : Request :=
  match readWords verb.switches rest {} with
  | .help => .help
  | .misuse => .misuse
  | .ok given =>
    match verb.task? given with
    | some task => .run ⟨(given.value? .config).orElse fun _ => before, task⟩
    | none => .misuse

def readLine (before : Option String) : List String → Request
  | [] => .misuse
  | word :: rest =>
    match Word.of [.config] word with
    | .plain =>
      match Verb.ofName? word with
      | some verb => requestOf verb before rest
      | none =>
        if word == "help" then
          match rest with
          | [] => .help
          | [topic] => if (Verb.ofName? topic).isSome || topic == "help" then .help else .misuse
          | _ => .misuse
        else .misuse
    | .endOfOptions => .misuse
    | .help => .help
    | .unknown => .misuse
    | .option switch value =>
      if before.isSome then .misuse
      else
        match value, rest with
        | some value, rest => if switch.admits value then readLine (some value) rest else .misuse
        | none, next :: rest =>
          if isValue next && switch.admits next then readLine (some next) rest else .misuse
        | none, [] => .misuse

def Request.ofArguments (arguments : List String) : Request := readLine none arguments

end DeclSchema.Command
