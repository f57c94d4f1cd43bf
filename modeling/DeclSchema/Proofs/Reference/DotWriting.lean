import DeclSchema.Proofs.Reference.Cycle
import DeclSchema.Proofs.Reference.DotReading
import DeclSchema.Reference.Dot

/-! # Graphs are read back from DOT

A text made of whole tokens is read part by part. A quoted text is one token whatever it holds,
so every node and every edge is one statement, and the drawing of a graph has all of the graph.
-/
namespace DeclSchema.Dot
open ReferenceGraph

theorem scan_append (mode : Mode) (s rest : List Char) :
    scan mode (s ++ rest) =
      ((scan mode s).1 ++ (scan (scan mode s).2 rest).1, (scan (scan mode s).2 rest).2) := by
  induction s generalizing mode with
  | nil => simp [scan]
  | cons c s ih => simp [scan, ih]

/-- The text consists of these tokens, and none of them can go on behind it. -/
def Scans (text : String) (tokens : List Token) : Prop :=
  scan .between text.toList = (tokens, .between)

instance (text : String) (tokens : List Token) : Decidable (Scans text tokens) :=
  inferInstanceAs (Decidable (_ = _))

theorem Scans.append {text text' : String} {tokens tokens' : List Token} (h : Scans text tokens)
    (h' : Scans text' tokens') : Scans (text ++ text') (tokens ++ tokens') := by
  unfold Scans at *
  rw [String.toList_append, scan_append, h, h']

theorem scan_spell (c : Char) (read : List Char) :
    scan (.quotes read) (spell c) = ([], .quotes (c :: read)) := by
  unfold spell
  split
  · rfl
  · rfl
  · rename_i hslash hquote
    have hslash : c ≠ '\\' := hslash
    have hquote : c ≠ '"' := hquote
    simp [scan, step, hslash, hquote]

theorem scan_spelled (s read : List Char) :
    scan (.quotes read) (s.flatMap spell) = ([], .quotes (s.reverse ++ read)) := by
  induction s generalizing read with
  | nil => rfl
  | cons c s ih => simp [scan_append, scan_spell, ih]

/-- A quoted text is one token, whatever its characters are. -/
theorem scans_dotQuoted (s : String) : Scans (dotQuoted s) [.quoted s] := by
  have htext : (dotQuoted s).toList = '"' :: (s.toList.flatMap spell ++ ['"']) := by
    simp [dotQuoted]
  have hopen : step .between '"' = ([], .quotes []) := rfl
  have hclose : scan (.quotes s.toList.reverse) ['"'] = ([.quoted s], .between) := by
    simp [scan, step]
  rw [Scans, htext, scan, hopen, scan_append, scan_spelled]
  simp [hclose]

/-- The text consists of these statements: a reader finds them, and goes on behind it. -/
def Draws (text : String) (statements : List Statement) : Prop :=
  ∃ tokens, Scans text tokens ∧ ∀ rest, statements? ((tokens ++ rest).splitOn (.mark ';')) =
    (statements? (rest.splitOn (.mark ';'))).map (statements ++ ·)

theorem draws_nil {text : String} (h : Scans text []) : Draws text [] :=
  ⟨[], h, fun rest => by simp⟩

theorem Draws.append {text text' : String} {statements statements' : List Statement}
    (h : Draws text statements) (h' : Draws text' statements') :
    Draws (text ++ text') (statements ++ statements') := by
  obtain ⟨tokens, hscans, hread⟩ := h
  obtain ⟨tokens', hscans', hread'⟩ := h'
  refine ⟨tokens ++ tokens', hscans.append hscans', fun rest => ?_⟩
  rw [List.append_assoc, hread, hread', Option.map_map]
  simp [Function.comp_def]

theorem draws_join {α : Type} {text : α → String} {statement : α → Statement}
    (h : ∀ item, Draws (text item) [statement item]) (items : List α) :
    Draws (String.join (items.map text)) (items.map statement) := by
  induction items with
  | nil => exact draws_nil rfl
  | cons item rest ih =>
    rw [List.map_cons, String.join_cons, List.map_cons]
    exact (h item).append ih

/-- Tokens with a semicolon behind them are one statement. -/
theorem draws_statement {text : String} {statement : Statement} (tokens : List Token)
    (h : Scans text (tokens ++ [.mark ';'])) (hnone : Token.mark ';' ∉ tokens)
    (hread : statement? tokens = some statement) : Draws text [statement] := by
  refine ⟨_, h, fun rest => ?_⟩
  have hkept : ∀ token ∈ tokens, (token == Token.mark ';') = false := by
    intro token htoken
    exact beq_false_of_ne (ne_of_mem_of_not_mem htoken hnone)
  have hcut : (tokens ++ [Token.mark ';'] ++ rest).splitOn (Token.mark ';') =
      tokens :: rest.splitOn (Token.mark ';') := by
    simpa [List.splitOn] using
      List.splitOnP_append_cons_of_forall_mem hkept (Token.mark ';') (by simp) rest
  rw [hcut]
  cases hpieces : rest.splitOn (Token.mark ';') with
  | nil => exact absurd hpieces (List.splitOn_ne_nil _ _)
  | cons next more => simp [statements?, hread]

theorem draws_dotNode (name : String) {attributes : String} {tokens : List Token}
    {table : Table String} (h : Scans attributes tokens) (hnone : Token.mark ';' ∉ tokens)
    (hread : attributes? (tokens ++ [.mark ']']) = some table) :
    Draws (dotNode name attributes) [.node name table] := by
  have hblank : Scans "  " [] := rfl
  have hopening : Scans " [" [.mark '['] := rfl
  have hclosing : Scans "];\n" [.mark ']', .mark ';'] := rfl
  have hscans := (((hblank.append (scans_dotQuoted name)).append hopening).append h).append hclosing
  apply draws_statement (.quoted name :: .mark '[' :: (tokens ++ [.mark ']']))
  · simpa [dotNode] using hscans
  · simpa using hnone
  · simp [statement?, hread]

theorem draws_node (name color : String) :
    Draws (dotNode name ("color=" ++ dotQuoted color)) [.node name [("color", color)]] := by
  have hcolor : Scans "color=" [.word "color", .mark '='] := rfl
  exact draws_dotNode name (hcolor.append (scans_dotQuoted color)) (by simp) rfl

theorem draws_missing (name color : String) :
    Draws (dotNode name ("style=dashed, color=" ++ dotQuoted color))
      [.node name [("style", "dashed"), ("color", color)]] := by
  have hstyle : Scans "style=dashed, color="
      [.word "style", .mark '=', .word "dashed", .mark ',', .word "color", .mark '='] := rfl
  exact draws_dotNode name (hstyle.append (scans_dotQuoted color)) (by simp) rfl

/-- An edge in a style. A word at the end of the style is only complete with what is behind. -/
theorem draws_dotEdge (r : Reference) {style : String} {tokens : List Token} {table : Table String}
    (h : Scans (style ++ "];\n") (tokens ++ [.mark ';'])) (hnone : Token.mark ';' ∉ tokens)
    (hread : attributes? (.word "label" :: .mark '=' :: .quoted r.property :: tokens) =
      some table) : Draws (dotEdge r style) [.edge r.source r.target table] := by
  have hblank : Scans "  " [] := rfl
  have harrow : Scans " -> " [.mark '-', .mark '>'] := rfl
  have hlabel : Scans " [label=" [.mark '[', .word "label", .mark '='] := rfl
  have hends := ((hblank.append (scans_dotQuoted r.source)).append harrow).append
    (scans_dotQuoted r.target)
  have hscans := ((hends.append hlabel).append (scans_dotQuoted r.property)).append h
  apply draws_statement (.quoted r.source :: .mark '-' :: .mark '>' :: .quoted r.target ::
    .mark '[' :: .word "label" :: .mark '=' :: .quoted r.property :: tokens)
  · simpa [dotEdge, String.append_assoc] using hscans
  · simpa using hnone
  · simp [statement?, hread]

theorem draws_edge (r : Reference) :
    Draws (dotEdge r "") [.edge r.source r.target [("label", r.property)]] := by
  have hclosing : Scans ("" ++ "];\n") ([.mark ']'] ++ [.mark ';']) := rfl
  exact draws_dotEdge r hclosing (by simp) rfl

theorem draws_loose (r : Reference) :
    Draws (dotEdge r ", style=dashed")
      [.edge r.source r.target [("label", r.property), ("style", "dashed")]] := by
  have hstyle : Scans (", style=dashed" ++ "];\n")
      ([.mark ',', .word "style", .mark '=', .word "dashed", .mark ']'] ++ [.mark ';']) := rfl
  exact draws_dotEdge r hstyle (by simp) rfl

theorem draws_direction : Draws "  rankdir=LR;\n" [.general] :=
  draws_statement [.word "rankdir", .mark '=', .word "LR"] rfl (by simp) rfl

theorem draws_nodeSettings :
    Draws "  node [shape=box, style=rounded, fontname=\"Helvetica\", fontsize=10];\n" [.general] :=
  draws_statement [.word "node", .mark '[', .word "shape", .mark '=', .word "box", .mark ',',
    .word "style", .mark '=', .word "rounded", .mark ',',
    .word "fontname", .mark '=', .quoted "Helvetica", .mark ',',
    .word "fontsize", .mark '=', .word "10", .mark ']'] (by decide +kernel) (by simp) rfl

theorem draws_edgeSettings :
    Draws "  edge [fontname=\"Helvetica\", fontsize=8];\n\n" [.general] :=
  draws_statement [.word "edge", .mark '[', .word "fontname", .mark '=', .quoted "Helvetica",
    .mark ',', .word "fontsize", .mark '=', .word "8", .mark ']'] rfl (by simp) rfl

def nodeColor (g : ReferenceGraph) (name : String) : String :=
  if g.cycles.flatten.contains name then cycleColor else plainColor

def drawingOf (g : ReferenceGraph) : Drawing where
  nodes := g.nodes.map fun name => (name, nodeColor g name)
  missing := sortedNames (g.dangling.map (·.target))
  edges := g.edges
  dangling := g.dangling

def statementsOf (g : ReferenceGraph) : List Statement :=
  g.nodes.map (fun name => .node name [("color", nodeColor g name)]) ++
    (sortedNames (g.dangling.map (·.target))).map
      (fun name => .node name [("style", "dashed"), ("color", missingColor)]) ++
    (g.edges.map (fun r => .edge r.source r.target [("label", r.property)]) ++
      g.dangling.map
        (fun r => .edge r.source r.target [("label", r.property), ("style", "dashed")]))

theorem ofStatements_statementsOf (g : ReferenceGraph) :
    Drawing.ofStatements (.general :: .general :: .general :: statementsOf g) = drawingOf g := by
  simp [Drawing.ofStatements, statementsOf, drawingOf, List.filterMap_cons, List.filterMap_map,
    Function.comp_def, Statement.node?, Statement.edge?, Statement.isDashed, Table.value?,
    Table.names]

/-- The text of a graph behind its first line, without the closing brace. -/
theorem draws_body (g : ReferenceGraph) : ∃ body,
    g.toDot = "digraph Definitions \x7b\n" ++ body ++ "\x7d\n" ∧
      Draws body (.general :: .general :: .general :: statementsOf g) := by
  have hnodes := (draws_join (fun name => draws_node name (nodeColor g name)) g.nodes).append
    (draws_join (fun name => draws_missing name missingColor)
      (sortedNames (g.dangling.map (·.target))))
  have hedges := (draws_join draws_edge g.edges).append (draws_join draws_loose g.dangling)
  have hblank : Draws "\n" [] := draws_nil rfl
  have hsettings := (draws_direction.append draws_nodeSettings).append draws_edgeSettings
  have hbody := (hsettings.append hnodes).append (hblank.append hedges)
  have hheader : dotHeader = "digraph Definitions \x7b\n" ++ ("  rankdir=LR;\n" ++
      "  node [shape=box, style=rounded, fontname=\"Helvetica\", fontsize=10];\n" ++
      "  edge [fontname=\"Helvetica\", fontsize=8];\n\n") := by decide +kernel
  refine ⟨_, ?_, hbody⟩
  simp only [toDot, hheader, String.join_append, String.append_assoc]
  rfl

/-- A reader of the text of a graph recovers the graph with its colours. -/
theorem read?_toDot (g : ReferenceGraph) : Drawing.read? g.toDot = some (drawingOf g) := by
  obtain ⟨body, htext, tokens, hscans, hread⟩ := draws_body g
  have hopening : Scans "digraph Definitions \x7b\n"
      [.word "digraph", .word "Definitions", .mark '{'] := rfl
  have hclosing : Scans "\x7d\n" [.mark '}'] := rfl
  have htokens : scan .between g.toDot.toList =
      ([.word "digraph", .word "Definitions", .mark '{'] ++ tokens ++ [.mark '}'], .between) := by
    rw [htext]
    exact (hopening.append hscans).append hclosing
  have hlast : statements? (List.splitOn (Token.mark ';') [Token.mark '}']) = some [] := rfl
  simp [Drawing.read?, htokens, hread, hlast, ofStatements_statementsOf]

/-- In a graph of definitions, the colour of cycles is the colour of what refers to itself. -/
theorem mem_cycles_ofDefinitions_iff {definitions : Definitions} (hnodup : definitions.names.Nodup)
    {name : String} : name ∈ (ofDefinitions definitions).cycles.flatten ↔
      Relation.TransGen definitions.Links name name := by
  have hgroup : (∃ names ∈ (ofDefinitions definitions).cycles, name ∈ names ∧ name ∈ names) ↔
      (ofDefinitions definitions).Mutual name name :=
    exists_group_iff (closed_ofDefinitions definitions)
  simp only [and_self, Mutual, reaches_ofDefinitions_iff hnodup] at hgroup
  rw [List.mem_flatten, hgroup]
  constructor
  · exact And.left
  · intro h
    obtain ⟨_, hlink, _⟩ := Relation.TransGen.head'_iff.mp h
    exact ⟨h, hlink.mem_names⟩

theorem nodeColor_ofDefinitions {definitions : Definitions} (hnodup : definitions.names.Nodup)
    (name : String) :
    (nodeColor (ofDefinitions definitions) name = cycleColor ↔
      Relation.TransGen definitions.Links name name) ∧
    (nodeColor (ofDefinitions definitions) name = plainColor ↔
      ¬ Relation.TransGen definitions.Links name name) := by
  have hdiffer : cycleColor ≠ plainColor := by decide
  rw [nodeColor, ← mem_cycles_ofDefinitions_iff hnodup, List.contains_eq_mem]
  by_cases h : name ∈ (ofDefinitions definitions).cycles.flatten <;> simp [h, hdiffer, hdiffer.symm]

end DeclSchema.Dot

namespace DeclSchema.ReferenceGraph
open Dot

/-- The text of a graph is faithful and unambiguous. A reader of it recovers every definition in
order, with a colour that tells whether references lead from the definition back to itself, then
the names of what dangling references lack, ascending and each one once, and all references, the
dangling ones apart. So definitions with one text have the same names and references. -/
theorem toDot_faithful (definitions : Definitions) (hnodup : definitions.names.Nodup) :
    (∃ drawing, Drawing.read? (ofDefinitions definitions).toDot = some drawing ∧
      drawing.nodes.names = definitions.names ∧
      (∀ name color, (name, color) ∈ drawing.nodes →
        (color = "#FF9800" ↔ Relation.TransGen definitions.Links name name) ∧
        (color = "#2196F3" ↔ ¬ Relation.TransGen definitions.Links name name)) ∧
      drawing.missing.Pairwise (· < ·) ∧
      (∀ target, target ∈ drawing.missing ↔
        target ∉ definitions.names ∧ ∃ r ∈ Definitions.references definitions, r.target = target) ∧
      drawing.edges =
        (Definitions.references definitions).filter (fun r => r.target ∈ definitions.names) ∧
      drawing.dangling =
        (Definitions.references definitions).filter (fun r => r.target ∉ definitions.names)) ∧
    ∀ other : Definitions, (ofDefinitions other).toDot = (ofDefinitions definitions).toDot →
      other.names = definitions.names ∧
        (ofDefinitions other).edges = (ofDefinitions definitions).edges ∧
        (ofDefinitions other).dangling = (ofDefinitions definitions).dangling := by
  have hnames (g : ReferenceGraph) : (drawingOf g).nodes.names = g.nodes := by
    simp [drawingOf, Table.names, Function.comp_def]
  constructor
  · refine ⟨_, read?_toDot _, hnames _, ?_, pairwise_sortedNames _, ?_, ?_, ?_⟩
    · intro name color hmem
      obtain ⟨_, _, hentry⟩ := List.mem_map.mp hmem
      cases hentry
      exact nodeColor_ofDefinitions hnodup name
    · intro target
      simp only [drawingOf, ofDefinitions, mem_sortedNames, List.mem_map, List.mem_filter,
        List.contains_eq_mem, Bool.not_eq_true', decide_eq_false_iff_not]
      constructor
      · rintro ⟨r, ⟨hr, hout⟩, rfl⟩
        exact ⟨hout, r, hr, rfl⟩
      · rintro ⟨hout, r, hr, rfl⟩
        exact ⟨r, ⟨hr, hout⟩, rfl⟩
    · simp [drawingOf, ofDefinitions]
    · simp [drawingOf, ofDefinitions]
  · intro other htext
    have hdrawing : drawingOf (ofDefinitions other) = drawingOf (ofDefinitions definitions) := by
      apply Option.some.inj
      rw [← read?_toDot, ← read?_toDot, htext]
    have hnodes := congrArg (fun drawing => drawing.nodes.names) hdrawing
    simp only [hnames] at hnodes
    exact ⟨hnodes, congrArg Drawing.edges hdrawing, congrArg Drawing.dangling hdrawing⟩

/-- Names and a property that look like the end of a node or like an edge. One of them refers to
itself, and a reference to the name with one backslash dangles beside that with two. -/
def forgedNames : Definitions :=
  [("Ring\"];\n  \"Forged", .structural [("next\\", ⟨"Ring\"];\n  \"Forged", false⟩),
      ("a\" -> \"b", ⟨"Gone\\", true⟩)]),
    ("Gone\\\\", .structural [])]

theorem toDot_forgedNames :
    forgedNames.names.Nodup ∧
      (∃ drawing, Drawing.read? (ofDefinitions forgedNames).toDot = some drawing ∧
        drawing.nodes.names = ["Ring\"];\n  \"Forged", "Gone\\\\"] ∧
        drawing.edges = [⟨"Ring\"];\n  \"Forged", "next\\", "Ring\"];\n  \"Forged"⟩] ∧
        drawing.dangling = [⟨"Ring\"];\n  \"Forged", "a\" -> \"b", "Gone\\"⟩]) := by
  have hnodup : forgedNames.names.Nodup := by decide
  obtain ⟨⟨drawing, hread, hnames, _, _, _, hedges, hdangling⟩, _⟩ :=
    toDot_faithful forgedNames hnodup
  refine ⟨hnodup, drawing, hread, hnames, hedges.trans ?_, hdangling.trans ?_⟩
  · decide +kernel
  · decide +kernel

end DeclSchema.ReferenceGraph
