import DeclSchema.Reference.Graph

/-! # Closure of references

The closure of a definition holds every name that can be reached from it by following
references. A name without a definition belongs to the closure but leads nowhere.
-/
namespace DeclSchema

def freshNames (found : List String) : List String → List String
  | [] => []
  | name :: rest =>
    if found.contains name then freshNames found rest
    else name :: freshNames (name :: found) rest

/-- Follows the references of the definitions on the frontier, adds the names that were not
found before, and goes on from their definitions. -/
def expand (definitions : Definitions) : Nat → List Definition → List String → List String
  | 0, _, found => found
  | rounds + 1, frontier, found =>
    let fresh := freshNames found (frontier.flatMap Definition.targets)
    if fresh.isEmpty then found
    else expand definitions rounds (fresh.filterMap definitions.value?) (found ++ fresh)

/-- Every name reachable from a definition, together with the given names, which are not
followed themselves. A round beyond the first begins at a definition not seen before, so
there are no more rounds than definitions. -/
def closure (definitions : Definitions) (start : Definition) (seed : List String) :
    List String :=
  expand definitions (definitions.length + 2) [start] seed

end DeclSchema
