import DeclSchema.Command.Arguments
import DeclSchema.Generation
import DeclSchema.Reference.Cycle
import DeclSchema.Reference.Dot
import DeclSchema.Settings.Sources
import DeclSchema.Suggestion
import DeclSchema.Text.Shown

/-! # Runs of the command

A run reads what it needs, and in the end either reports one failure or has one result, which
goes to a file if one is named and else to the standard output. A run that fails prints
nothing there and writes no file.
-/
namespace DeclSchema.Command
open Text

structure Outcome where
  code : Nat := 0
  output : String := ""
  messages : String := ""
  written : Option (String × String) := none
deriving Repr, DecidableEq

structure Delivery where
  text : String
  target : Option String
  /-- Messages on the way, and the one after a file was written. -/
  notes : String := ""
  confirmation : String := ""
  /-- What a failure to write is introduced with. -/
  purpose : String := ""

def suggestionLimit : Nat := 5

def line (s : String) : String := s ++ "\n"

def failed (notes message : String) : Outcome :=
  { code := 1, messages := notes ++ line s!"❌ Error: {message}" }

def explain : Failure → String
  | .unreadable fault => s!"{(Failure.unreadable fault).message}: {fault.message}"
  | failure => failure.message

def advice (files : Files) : Failure → String
  | .unknownName name path =>
    match (files.readText path).toOption.bind fun source =>
        (Definitions.ofSource path source).toOption with
    | some definitions =>
      match Suggestion.suggest definitions name suggestionLimit with
      | [] => ""
      | names =>
        let list := String.intercalate ", " names
        line s!"Did you mean: {list}?"
    | none => ""
  | _ => ""

def generateTask (files : Files) (settings : Settings) (file : String)
    (name target : Option String) : Except Failure Delivery :=
  (settings.generateFile files file name).map fun report =>
    let path := target.getD ""
    { text := line (settings.render report.document)
      target := target
      confirmation := line s!"✅ Wrote {report.document.length} schemas to {shown path}"
      purpose := s!"writing {path}: " }

def graphNotes (graph : ReferenceGraph) : String :=
  line s!"Graph loaded: {graph.nodes.length} definitions, {graph.edges.length} references"
    ++ String.join (graph.cycles.map fun cycle =>
      line ("   🔁 " ++ String.intercalate " ↔ " cycle))
    ++ String.join (graph.dangling.map fun r =>
      line s!"   ⚠️  {r.source}.{r.property} -> {r.target} (not declared)")

def graphTask (files : Files) (file : String) (target : Option String) :
    Except Failure Delivery :=
  match files.readText file with
  | .error fault => .error (.unreadable fault)
  | .ok source =>
    (Definitions.ofSource file source).map fun definitions =>
      let graph := ReferenceGraph.ofDefinitions definitions
      let path := target.getD ""
      { text := graph.toDot
        target := target
        notes := graphNotes graph
        confirmation := line s!"✅ Exported DOT to: {shown path}"
        purpose := s!"writing {path}: " }

def settingsTask (settings : Settings) (display : Bool) : Option String → Delivery
  | some target =>
    { text := Settings.write {}
      target := some target
      confirmation := line s!"✅ Wrote default configuration to {shown target}" }
  | none =>
    if display then { text := settings.write, target := none }
    else
      { text := "", target := none,
        notes := line "Nothing to do: pass --show or --init <PATH>" }

def deliver (files : Files) (delivery : Delivery) : Outcome :=
  match delivery.target with
  | none => { output := delivery.text, messages := delivery.notes }
  | some target =>
    match files.hindrance target with
    | some fault => failed delivery.notes (delivery.purpose ++ fault.message)
    | none =>
      { messages := delivery.notes ++ delivery.confirmation
        written := some (target, delivery.text) }

def adjusted (settings : Settings) (compact components : Bool) : Settings :=
  { settings with
    format := if compact then .compact else settings.format
    layout := if components then .components else settings.layout }

def perform (files : Files) (settings : Settings) : Task → Outcome
  | .generate file name target compact components =>
    match generateTask files (adjusted settings compact components) file name target with
    | .ok delivery => deliver files delivery
    | .error failure => failed (advice files failure) (explain failure)
  | .graph file target =>
    match graphTask files file target with
    | .ok delivery => deliver files delivery
    | .error failure => failed "" (explain failure)
  | .settings display target => deliver files (settingsTask settings display target)

def misuseCode : Nat := 2

def run (around : Surroundings) (arguments : List String) : Outcome :=
  match Request.ofArguments arguments with
  | .misuse => { code := misuseCode }
  | .help => {}
  | .run invocation =>
    match around.settings invocation.settingsFile with
    | .error fault => failed "" s!"loading configuration: {fault.message}"
    | .ok settings => perform around.files settings invocation.task

end DeclSchema.Command
