import DeclSchema.Schema.Basic
import DeclSchema.Shape

/-! # Schemas of definitions

A structure becomes an object schema with one property per property, in order; a fixed list
of values becomes an enumeration schema.
-/
namespace DeclSchema

/-- The schema of a shape; the path of a name is the given start followed by the name. -/
def Shape.toSchema (base : String) : Shape → Schema
  | primitive type => .primitive type
  | reference name => .reference (base ++ name)
  | array items => .array (items.toSchema base)

def Value.commonType (values : List Value) : Primitive :=
  let isBoolean : Value → Bool
    | .boolean _ => true
    | _ => false
  let isNumber : Value → Bool
    | .number _ => true
    | _ => false
  if values.isEmpty then .string
  else if values.all isBoolean then .boolean
  else if values.all isNumber then .number
  else .string

namespace Definition

/-- The schema of a definition. A property is required unless it is optional. -/
def toSchema (base : String) : Definition → Schema
  | structural properties =>
    .object (properties.mapValues fun p => (Shape.ofText p.typeText).toSchema base)
      ((properties.filter fun entry => !entry.2.optional).map Prod.fst)
  | enumerated values => .enumeration (Value.commonType values) values

end Definition
end DeclSchema
