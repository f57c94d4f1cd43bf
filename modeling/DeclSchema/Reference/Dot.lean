import DeclSchema.Reference.Cycle

/-! # The reference graph in DOT

Every definition is a node, coloured by whether it is recursive; every name that only
dangling references mention is a dashed node. References are edges with the property as
label, dashed if they dangle.
-/
namespace DeclSchema.ReferenceGraph

def spell : Char → List Char
  | '\\' => ['\\', '\\']
  | '"' => ['\\', '"']
  | c => [c]

def dotQuoted (s : String) : String :=
  "\"" ++ String.ofList (s.toList.flatMap spell) ++ "\""

def cycleColor : String := "#FF9800"

def plainColor : String := "#2196F3"

def missingColor : String := "#9E9E9E"

def dotNode (name attributes : String) : String :=
  "  " ++ dotQuoted name ++ " [" ++ attributes ++ "];\n"

def dotEdge (r : Reference) (style : String) : String :=
  "  " ++ dotQuoted r.source ++ " -> " ++ dotQuoted r.target ++ " [label="
    ++ dotQuoted r.property ++ style ++ "];\n"

def dotHeader : String :=
  "digraph Definitions \x7b\n  rankdir=LR;\n"
    ++ "  node [shape=box, style=rounded, fontname=\"Helvetica\", fontsize=10];\n"
    ++ "  edge [fontname=\"Helvetica\", fontsize=8];\n\n"

def toDot (g : ReferenceGraph) : String :=
  let recursive := g.cycles.flatten
  let color (name : String) : String :=
    if recursive.contains name then cycleColor else plainColor
  let nodes := g.nodes.map fun name => dotNode name ("color=" ++ dotQuoted (color name))
  let missing := (sortedNames (g.dangling.map (·.target))).map fun name =>
    dotNode name ("style=dashed, color=" ++ dotQuoted missingColor)
  let edges := g.edges.map fun r => dotEdge r ""
  let loose := g.dangling.map fun r => dotEdge r ", style=dashed"
  dotHeader ++ String.join (nodes ++ missing) ++ "\n" ++ String.join (edges ++ loose) ++ "\x7d\n"

end DeclSchema.ReferenceGraph
