import DeclSchema.Reference.Graph

/-! # Cycles of references

Two definitions are mutually recursive if each can be reached from the other over one or
more edges. The classes of this relation are the cycles of the graph.
-/
namespace DeclSchema.ReferenceGraph

def spread (g : ReferenceGraph) : Nat → List String → List String → List String
  | 0, _, found => found
  | rounds + 1, frontier, found =>
    let next := ((g.edges.filter fun r => frontier.contains r.source).map (·.target)).eraseDups
    let fresh := next.filter fun name => !found.contains name
    if fresh.isEmpty then found else spread g rounds fresh (found ++ fresh)

def reachable (g : ReferenceGraph) (name : String) : List String :=
  spread g (g.nodes.length + 1) [name] []

/-- Groups of mutually recursive definitions, a self-reference included. Each group is
sorted, and the groups are sorted by their names. -/
def cycles (g : ReferenceGraph) : List (List String) :=
  let reach := g.nodes.map fun name => (name, reachable g name)
  let reaches (a b : String) : Bool := ((reach.lookup a).getD []).contains b
  let recursive := g.nodes.filter fun name => reaches name name
  let group (name : String) : List String :=
    sortedNames (recursive.filter fun other => reaches name other && reaches other name)
  ((recursive.map group).eraseDups).mergeSort fun a b => !(b < a)

end DeclSchema.ReferenceGraph
