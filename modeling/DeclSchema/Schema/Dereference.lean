import DeclSchema.Schema.Basic

/-! # Array references

A reference whose path ends in a pair of brackets stands for an array of what the rest of
the path refers to. `dereference` writes such references out, at any depth.
-/
namespace DeclSchema.Schema
open Text

/-- The array written out of a reference path, one level for each pair of brackets at its
end. -/
def ofPath (path : List Char) : Schema :=
  match _h : beforeTail? ['[', ']'] path with
  | some element => array (ofPath element)
  | none => reference (String.ofList path)
termination_by path.length
decreasing_by
  rw [beforeTail?_eq_some_iff.mp _h]
  simp

mutual

def dereference : Schema → Schema
  | primitive type => primitive type
  | reference path => ofPath path.toList
  | array items => array (dereference items)
  | object properties required => object (dereferenceAll properties) required
  | enumeration type values => enumeration type values

def dereferenceAll : List (String × Schema) → List (String × Schema)
  | [] => []
  | (name, schema) :: rest => (name, dereference schema) :: dereferenceAll rest

end

end DeclSchema.Schema

namespace DeclSchema

def Document.dereference (document : Document) : Document := Schema.dereferenceAll document

end DeclSchema
