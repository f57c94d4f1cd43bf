import DeclSchema.Extraction
import DeclSchema.Files
import DeclSchema.Reference.Closure
import DeclSchema.Schema.Dereference
import DeclSchema.Schema.Synthesis
import DeclSchema.Settings.Basic
import DeclSchema.Syntax.Source

/-! # Generation

From a source to a document of schemas: of all its definitions, or of one definition and
those that it reaches. References that lead to no definition of the document are reported
along with it.
-/
namespace DeclSchema
open Syntax

inductive Failure
  /-- The source at this path has no definition of this name. -/
  | unknownName (name path : String)
  | malformed (path : String) (error : SyntaxError)
  | unreadable (fault : FileFault)
deriving Repr, DecidableEq

def Failure.message : Failure → String
  | unknownName name path => s!"Interface {name} not found in {path}"
  | malformed path error =>
    s!"Malformed source {path}:{error.place.line}:{error.place.column}: {error.message}"
  | unreadable fault => s!"IO error: {fault.message}"

structure Report where
  document : Document
  dangling : List Reference

def Reference.warning : String := "property references an unknown type"

namespace Definitions

def toDocument (definitions : Definitions) (base : String) : Document :=
  Document.dereference (definitions.mapValues (Definition.toSchema base))

def ofSource (path source : String) : Except Failure Definitions :=
  match parseSource source with
  | .ok items => .ok (ofItems items)
  | .error error => .error (.malformed path error)

def restrictedTo (definitions : Definitions) (root : String) (d : Definition) : Definitions :=
  let reached := closure definitions d [root]
  Table.keep definitions reached.contains

def report (definitions : Definitions) (settings : Settings) : Report :=
  { document := definitions.toDocument settings.base
    dangling :=
      if settings.warnDangling then (ReferenceGraph.ofDefinitions definitions).dangling else [] }

end Definitions

namespace Settings

def generateAll (settings : Settings) (path source : String) : Except Failure Report :=
  (Definitions.ofSource path source).map (·.report settings)

def generateOne (settings : Settings) (path source root : String) : Except Failure Report :=
  (Definitions.ofSource path source).bind fun definitions =>
    match definitions.value? root with
    | some d => .ok ((definitions.restrictedTo root d).report settings)
    | none => .error (.unknownName root path)

def generate (settings : Settings) (path source : String) : Option String → Except Failure Report
  | some root => settings.generateOne path source root
  | none => settings.generateAll path source

def generateFile (settings : Settings) (files : Files) (path : String) (root? : Option String) :
    Except Failure Report :=
  match files.readText path with
  | .ok source => settings.generate path source root?
  | .error fault => .error (.unreadable fault)

def toJson (settings : Settings) (document : Document) : Json :=
  match settings.layout with
  | .schemas => document.toJson
  | .components => .object [("components", .object [("schemas", document.toJson)])]

def render (settings : Settings) (document : Document) : String :=
  match settings.format with
  | .pretty => (settings.toJson document).indented
  | .compact => (settings.toJson document).compact

end Settings
end DeclSchema
