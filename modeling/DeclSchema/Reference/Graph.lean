import DeclSchema.Definition
import DeclSchema.Shape

/-! # References between definitions

A property refers to the name that the shape of its type ends in, unless that name is
reserved. The reference graph has the definitions as nodes and one edge for every property
that refers to a definition; references to other names dangle.
-/
namespace DeclSchema

def reservedNames : List String :=
  ["string", "number", "boolean", "any", "unknown", "null", "undefined", "void", "never",
    "object", "array"]

def isReserved (name : String) : Bool := reservedNames.contains name

def targetOf? (typeText : String) : Option String :=
  (Shape.ofText typeText).referencedName?.filter fun name => !isReserved name

structure Reference where
  source : String
  property : String
  target : String
deriving Repr, DecidableEq

def Definition.references (name : String) (d : Definition) : List Reference :=
  (d.properties?.getD []).filterMap fun (property, p) =>
    (targetOf? p.typeText).map fun target => ⟨name, property, target⟩

def Definition.targets (d : Definition) : List String :=
  (d.properties?.getD []).filterMap fun (_, p) => targetOf? p.typeText

def Definitions.references (definitions : Definitions) : List Reference :=
  definitions.flatMap fun (name, d) => d.references name

structure ReferenceGraph where
  nodes : List String
  /-- References to nodes. -/
  edges : List Reference
  /-- References to names that are no nodes. -/
  dangling : List Reference
deriving Repr

def sortedNames (names : List String) : List String :=
  (names.mergeSort fun a b => !(b < a)).eraseDups

namespace ReferenceGraph

def ofDefinitions (definitions : Definitions) : ReferenceGraph :=
  let nodes := definitions.names
  let references := Definitions.references definitions
  { nodes := nodes
    edges := references.filter fun r => nodes.contains r.target
    dangling := references.filter fun r => !nodes.contains r.target }

def successors (g : ReferenceGraph) (name : String) : List String :=
  sortedNames ((g.edges.filter fun r => r.source == name).map (·.target))

def predecessors (g : ReferenceGraph) (name : String) : List String :=
  sortedNames ((g.edges.filter fun r => r.target == name).map (·.source))

end ReferenceGraph
end DeclSchema
