import DeclSchema.Reference.Graph
import DeclSchema.Text.Chars

/-! # Reading DOT

A reader for directed graphs in DOT. It takes a text apart into words, quoted strings and marks,
cuts these into statements at the semicolons, and collects what the statements draw. Between
quotes nothing is a mark, and a backslash makes a quote or a backslash part of the string.
-/
namespace DeclSchema.Dot

inductive Token
  | word (text : String)
  | quoted (text : String)
  | mark (c : Char)
deriving Repr, DecidableEq

/-- Where a reader stands, with what it has read of a token, the last character first. -/
inductive Mode
  | between
  | word (read : List Char)
  | quotes (read : List Char)
  /-- Between quotes, right after a backslash. -/
  | escape (read : List Char)
deriving Repr, DecidableEq

def isWordChar (c : Char) : Bool := Text.isDigit c || Text.isUpper c || Text.isLower c || c == '_'

def enter (c : Char) : List Token × Mode :=
  if Text.isBlank c then ([], .between)
  else if c == '"' then ([], .quotes [])
  else if isWordChar c then ([], .word [c])
  else ([.mark c], .between)

def step (mode : Mode) (c : Char) : List Token × Mode :=
  match mode with
  | .between => enter c
  | .word read =>
    if isWordChar c then ([], .word (c :: read))
    else (.word (String.ofList read.reverse) :: (enter c).1, (enter c).2)
  | .quotes read =>
    if c == '"' then ([.quoted (String.ofList read.reverse)], .between)
    else if c == '\\' then ([], .escape read)
    else ([], .quotes (c :: read))
  | .escape read =>
    if c == '"' || c == '\\' then ([], .quotes (c :: read))
    else ([], .quotes (c :: '\\' :: read))

def scan (mode : Mode) : List Char → List Token × Mode
  | [] => ([], mode)
  | c :: rest => ((step mode c).1 ++ (scan (step mode c).2 rest).1, (scan (step mode c).2 rest).2)

inductive Statement
  /-- A setting of the graph, or of all its nodes or edges. -/
  | general
  | node (name : String) (attributes : Table String)
  | edge (source target : String) (attributes : Table String)

def Token.text? : Token → Option String
  | word text | quoted text => some text
  | mark _ => none

def attributes? : List Token → Option (Table String)
  | [.word name, .mark '=', value, .mark ']'] => value.text?.map fun text => [(name, text)]
  | .word name :: .mark '=' :: value :: .mark ',' :: rest =>
    value.text?.bind fun text => (attributes? rest).map ((name, text) :: ·)
  | _ => none

def statement? : List Token → Option Statement
  | [.word _, .mark '=', value] => value.text?.map fun _ => .general
  | .word _ :: .mark '[' :: rest => (attributes? rest).map fun _ => .general
  | .quoted name :: .mark '[' :: rest => (attributes? rest).map (.node name)
  | .quoted source :: .mark '-' :: .mark '>' :: .quoted target :: .mark '[' :: rest =>
    (attributes? rest).map (.edge source target)
  | _ => none

def statements? : List (List Token) → Option (List Statement)
  | [] => none
  | [last] => if last = [.mark '}'] then some [] else none
  | piece :: next :: rest =>
    (statement? piece).bind fun statement => (statements? (next :: rest)).map (statement :: ·)

/-- What is drawn: the nodes with their colours, the names of the dashed nodes, and the edges with
their labels, the dashed ones apart. -/
structure Drawing where
  nodes : Table String
  missing : List String
  edges : List Reference
  dangling : List Reference

namespace Statement

def isDashed (attributes : Table String) : Bool := attributes.value? "style" = some "dashed"

def node? (dashed : Bool) : Statement → Option (String × String)
  | node name attributes =>
    if isDashed attributes = dashed then (attributes.value? "color").map (name, ·) else none
  | _ => none

def edge? (dashed : Bool) : Statement → Option Reference
  | edge source target attributes =>
    if isDashed attributes = dashed then
      (attributes.value? "label").map fun label => ⟨source, label, target⟩
    else none
  | _ => none

end Statement

def Drawing.ofStatements (statements : List Statement) : Drawing where
  nodes := statements.filterMap (Statement.node? false)
  missing := Table.names (statements.filterMap (Statement.node? true))
  edges := statements.filterMap (Statement.edge? false)
  dangling := statements.filterMap (Statement.edge? true)

def Drawing.read? (text : String) : Option Drawing :=
  match scan .between text.toList with
  | (.word kind :: .word _ :: .mark '{' :: body, .between) =>
    if kind = "digraph" then (statements? (body.splitOn (.mark ';'))).map ofStatements else none
  | _ => none

end DeclSchema.Dot
