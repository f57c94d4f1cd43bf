import DeclSchema.Definition
import DeclSchema.Json.Basic
import DeclSchema.Primitive

/-! # Schemas

The schema objects of an OpenAPI document and their JSON form.
-/
namespace DeclSchema

inductive Schema
  | primitive (type : Primitive)
  /-- A `$ref` with its full path. -/
  | reference (path : String)
  | array (items : Schema)
  /-- Properties in order, and the names of those that must be present. -/
  | object (properties : List (String × Schema)) (required : List String)
  | enumeration (type : Primitive) (values : List Value)

abbrev Document := Table Schema

def Value.toJson : Value → Json
  | boolean b => .boolean b
  | number n => .number n
  | string s => .string s

namespace Schema

def path? : Schema → Option String
  | reference path => some path
  | _ => none

mutual

/-- The JSON form. The list of required names is left out when it is empty. -/
def toJson : Schema → Json
  | primitive type => .object [("type", .string type.name)]
  | reference path => .object [("$ref", .string path)]
  | array items => .object [("type", .string "array"), ("items", toJson items)]
  | object properties required =>
    .object ([("type", .string "object"), ("properties", .object (membersToJson properties))]
      ++ if required.isEmpty then [] else [("required", .array (required.map .string))])
  | enumeration type values =>
    .object [("type", .string type.name), ("enum", .array (values.map Value.toJson))]

def membersToJson : List (String × Schema) → List (String × Json)
  | [] => []
  | (name, schema) :: rest => (name, toJson schema) :: membersToJson rest

end

end Schema

def Document.toJson (document : Document) : Json := .object (Schema.membersToJson document)

end DeclSchema
