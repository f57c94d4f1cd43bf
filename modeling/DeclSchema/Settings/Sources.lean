import DeclSchema.Files
import DeclSchema.Settings.Layers
import DeclSchema.Toml.Document

/-! # Sources of settings

Settings are read from the files in the usual places, then from the user's own file, then
from a file that is named explicitly, and last from the environment. Only the explicitly
named file has to exist; a file that exists has to be well formed.
-/
namespace DeclSchema
open Text

structure Surroundings where
  files : Files
  environment : List (String × String) := []
  /-- The name of the user's own settings file. -/
  userSettings : Option String := none

inductive SettingsFault
  | missingFile (name : String)
  /-- The file's name does not say that it is a TOML document. -/
  | unknownForm (name : String)
  | malformed (name : String)
  /-- A setting has a value that it cannot take. -/
  | unsuitable
deriving Repr, DecidableEq

def SettingsFault.message : SettingsFault → String
  | missingFile name => s!"configuration file \"{name}\" not found"
  | unknownForm name => s!"configuration file \"{name}\" is not of a registered file format"
  | malformed name => s!"configuration file \"{name}\" is malformed"
  | unsuitable => "a setting has an unsuitable value"

def usualPlaces : List String := ["tsoas.toml", ".tsoas.toml", "config/tsoas.toml"]

def tomlEnding : List Char := ".toml".toList

/-- A name without slashes, and without steps that lead nowhere, at its end. -/
def withoutOpenEnd : Nat → List Char → List Char
  | 0, s => s
  | n + 1, s =>
    match beforeTail? ['/'] s with
    | some stem => if stem.isEmpty then s else withoutOpenEnd n stem
    | none =>
      match beforeTail? ['/', '.'] s with
      | some stem => if stem.isEmpty then s else withoutOpenEnd n stem
      | none => s

def lastPart (s : List Char) : List Char := (s.reverse.takeWhile (· != '/')).reverse

/-- Whether a name has the ending of TOML documents, with something in front of it. -/
def namesToml (name : String) : Bool :=
  let last := lastPart (withoutOpenEnd name.length name.toList)
  match beforeTail? tomlEnding last with
  | some stem => !stem.isEmpty
  | none => false

def withTomlEnding? (name : String) : Option String :=
  let stem := withoutOpenEnd name.length name.toList
  if ["", ".", ".."].map String.toList |>.contains (lastPart stem) then none
  else some (String.ofList (stem ++ tomlEnding))

/-- The file that a name of settings means: the file of exactly this name, or else the one
whose name has the ending in addition. -/
def findSettings (files : Files) (name : String) : Except SettingsFault String :=
  if files.holds name then if namesToml name then .ok name else .error (.unknownForm name)
  else
    match withTomlEnding? name with
    | some longer => if files.holds longer then .ok longer else .error (.missingFile name)
    | none => .error (.missingFile name)

def layerOfText? (text : String) : Option Layer := Toml.read? (withoutMark text.toList)

def readLayer (files : Files) (name : String) : Except SettingsFault Layer :=
  match files.read name with
  | .error _ => .error (.missingFile name)
  | .ok bytes =>
    match layerOfText? (lenientText bytes) with
    | some layer => .ok layer
    | none => .error (.malformed name)

def optionalLayer (files : Files) (name : String) : Except SettingsFault Layer :=
  match findSettings files name with
  | .ok found => readLayer files found
  | .error _ => .ok []

def requiredLayer (files : Files) (name : String) : Except SettingsFault Layer :=
  (findSettings files name).bind (readLayer files)

namespace Surroundings

def layers (around : Surroundings) (explicit : Option String) :
    Except SettingsFault (List Layer) := do
  let usual ← usualPlaces.mapM (optionalLayer around.files)
  let user ←
    match around.userSettings with
    | some name => if around.files.holds name then optionalLayer around.files name else pure []
    | none => pure []
  let named ←
    match explicit with
    | some name => requiredLayer around.files name
    | none => pure []
  return usual ++ [user, named, environmentLayer around.environment]

def settings (around : Surroundings) (explicit : Option String) :
    Except SettingsFault Settings := do
  match Settings.ofLayers? (← around.layers explicit) with
  | some settings => return settings
  | none => throw .unsuitable

end Surroundings

def Settings.save (settings : Settings) (d : Directory) (name : String) :
    Except FileFault Directory := d.store name settings.write

end DeclSchema
