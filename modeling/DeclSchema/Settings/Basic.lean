import DeclSchema.Toml.Quoted

/-! # Settings

How schemas are written: the start of every reference path, the form of the JSON text, what
is wrapped around the schemas, and whether references that lead nowhere are reported.
-/
namespace DeclSchema

inductive Format
  | pretty
  | compact
deriving Repr, DecidableEq

inductive DocumentLayout
  | schemas
  /-- The schemas as components of an OpenAPI document. -/
  | components
deriving Repr, DecidableEq

structure Settings where
  /-- What the path of every reference begins with. -/
  base : String := "#/components/schemas/"
  format : Format := .pretty
  layout : DocumentLayout := .schemas
  warnDangling : Bool := true
deriving Repr, DecidableEq

def Format.name : Format → String
  | pretty => "pretty"
  | compact => "compact"

def DocumentLayout.name : DocumentLayout → String
  | schemas => "schemas"
  | components => "components"

def Settings.write (settings : Settings) : String :=
  let quoted (s : String) : List Char := Toml.quote s.toList
  String.ofList <|
    "[schema]\nref_prefix = ".toList ++ quoted settings.base
      ++ "\n\n[output]\nformat = ".toList ++ quoted settings.format.name
      ++ "\nlayout = ".toList ++ quoted settings.layout.name
      ++ "\n\n[analysis]\nwarn_dangling = ".toList
      ++ (if settings.warnDangling then "true" else "false").toList ++ "\n".toList

end DeclSchema
