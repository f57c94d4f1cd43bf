import DeclSchema.Number
import DeclSchema.Syntax.Tree
import DeclSchema.Table

/-! # Definitions

A definition is a named shape: a structure of properties, each with the text of its type,
or a fixed list of values.
-/
namespace DeclSchema
open Syntax

inductive Value
  | boolean (value : Bool)
  | number (value : Number)
  | string (value : String)
deriving Repr, DecidableEq

/-- The value of a literal. A number that is not written as a plain decimal stays text. -/
def Value.ofLiteral : Literal → Value
  | .string s => string s
  | .boolean b => boolean b
  | .number text =>
    match Number.ofLiteral? text with
    | some n => number n
    | none => string text

structure Property where
  typeText : String
  optional : Bool
deriving Repr, DecidableEq

inductive Definition
  | structural (properties : Table Property)
  | enumerated (values : List Value)
deriving Repr, DecidableEq

abbrev Definitions := Table Definition

namespace Definition

def empty : Definition := structural []

def properties? : Definition → Option (Table Property)
  | structural properties => some properties
  | enumerated _ => none

def splitMarker (key : String) : String × Bool :=
  match Text.beforeTail? ['?'] key.toList with
  | some name => (String.ofList name, true)
  | none => (key, false)

def ofKeys (entries : List (String × String)) : Definition :=
  structural (Table.ofEntries (entries.map fun (key, typeText) =>
    let (name, optional) := splitMarker key
    (name, ⟨typeText, optional⟩)))

end Definition
end DeclSchema
