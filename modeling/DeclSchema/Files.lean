import DeclSchema.Table
import DeclSchema.Text.Bytes

/-! # Files

What a run sees of the files around it, and directories as a concrete case of that. A
directory is the table of the files below it, each with its path; folders exist as far as
files lie in them.
-/
namespace DeclSchema
open Text

inductive FileFault
  | missing
  | notFolder
  | isFolder
  | notText
deriving Repr, DecidableEq

def FileFault.message : FileFault → String
  | missing => "No such file or directory (os error 2)"
  | notFolder => "Not a directory (os error 20)"
  | isFolder => "Is a directory (os error 21)"
  | notText => "stream did not contain valid UTF-8"

structure Files where
  read : String → Except FileFault ByteArray
  /-- What hinders opening a file for writing. -/
  hindrance : String → Option FileFault

namespace Files

def holds (files : Files) (name : String) : Bool := (files.read name).isOk

def readText (files : Files) (name : String) : Except FileFault String :=
  match files.read name with
  | .error fault => .error fault
  | .ok bytes =>
    match strictText? bytes with
    | some s => .ok s
    | none => .error .notText

end Files

abbrev Directory := List (List String × ByteArray)

namespace Directory

def file? (d : Directory) (path : List String) : Option ByteArray :=
  (d.find? fun entry => entry.1 == path).map Prod.snd

def isFile (d : Directory) (path : List String) : Bool := (d.file? path).isSome

/-- Whether files lie below this path. The directory itself is a folder even when empty. -/
def isFolder (d : Directory) (path : List String) : Bool :=
  path.isEmpty || d.any fun entry => path.isPrefixOf entry.1 && entry.1 != path

def follow (d : Directory) (path : List String) : List String → Except FileFault (List String)
  | [] => .ok path
  | part :: more =>
    if d.isFile path then .error .notFolder
    else if !d.isFolder path then .error .missing
    else if part == "" || part == "." then follow d path more
    else if part == ".." then if path.isEmpty then .error .missing else follow d path.dropLast more
    else follow d (path ++ [part]) more

/-- The path that a name leads to. Names from the root lead out of the directory. -/
def locate (d : Directory) (name : String) : Except FileFault (List String) :=
  if name.isEmpty || name.toList.head? == some '/' then .error .missing
  else d.follow [] ((splitOn '/' name.toList).map String.ofList)

def read (d : Directory) (name : String) : Except FileFault ByteArray :=
  match d.locate name with
  | .error fault => .error fault
  | .ok path =>
    match d.file? path with
    | some bytes => .ok bytes
    | none => .error (if d.isFolder path then .isFolder else .missing)

def hindrance (d : Directory) (name : String) : Option FileFault :=
  match d.locate name with
  | .error fault => some (if fault == .missing && endsOpen then .isFolder else fault)
  | .ok path => if d.isFolder path then some .isFolder else none
where
  /-- Whether the name ends like that of a folder in a folder that exists. -/
  endsOpen : Bool :=
    match beforeTail? ['/'] name.toList with
    | none => false
    | some stem =>
      match d.locate (String.ofList stem) with
      | .ok path => !d.isFile path
      | .error _ => false

def put (d : Directory) (path : List String) (bytes : ByteArray) : Directory :=
  if d.isFile path then d.map fun entry => if entry.1 == path then (path, bytes) else entry
  else d ++ [(path, bytes)]

def write (d : Directory) (name : String) (bytes : ByteArray) : Directory :=
  match d.locate name with
  | .error _ => d
  | .ok path => d.put path bytes

def store (d : Directory) (name text : String) : Except FileFault Directory :=
  match d.hindrance name with
  | some fault => .error fault
  | none => .ok (d.write name text.toUTF8)

def files (d : Directory) : Files := ⟨d.read, d.hindrance⟩

def ofFiles (entries : List (String × ByteArray)) : Directory :=
  entries.foldl (fun d (name, bytes) =>
    d.put (((splitOn '/' name.toList).map String.ofList).filter fun part =>
      part != "" && part != ".") bytes) []

end Directory
end DeclSchema
