import DeclSchema.Toml.Quoted
import DeclSchema.Toml.Scalar

/-! # TOML documents

A document is read line by line. Headers and dotted keys open tables; what was closed once,
by a value or by a header, cannot be opened again. `Toml.read?` gives the table that the
whole document stands for.
-/
namespace DeclSchema.Toml
open Text

inductive Origin
  /-- By a header of its own. -/
  | header
  /-- By the header of a table inside of it. -/
  | implied
  /-- By a dotted key. -/
  | dotted
deriving DecidableEq

inductive Node
  | value (v : Toml)
  | table (origin : Origin) (entries : List (String × Node))
  /-- A list of tables, to which headers add; the last one comes first. -/
  | tables (last : List (String × Node)) (others : List (List (String × Node)))

abbrev Nodes := List (String × Node)

def Nodes.update (nodes : Nodes) (key : String) (f : Option Node → Option Node) : Option Nodes :=
  (f (Table.value? nodes key)).map (Table.put nodes key)

/-- Writes a value under a dotted key. The flag says whether the table may receive a key of
this length: one opened by a header receives only the keys under that header. -/
def Nodes.insert (accepts : Bool) (nodes : Nodes) (v : Toml) : List String → Option Nodes
  | [] => none
  | [key] =>
    if accepts then nodes.update key fun
      | none => some (.value v)
      | some _ => none
    else none
  | key :: next :: more =>
    nodes.update key fun
      | none => (Nodes.insert true [] v (next :: more)).map (.table .dotted)
      | some (.table .dotted inner) =>
        (Nodes.insert true inner v (next :: more)).map (.table .dotted)
      | some (.table .implied inner) =>
        (Nodes.insert false inner v (next :: more)).map (.table .implied)
      | some (.tables last others) =>
        (Nodes.insert false last v (next :: more)).map fun last => .tables last others
      | some _ => none

/-- Works on the table at a path, where the last one of a list of tables counts. -/
def Nodes.atPath (f : Nodes → Option Nodes) : List String → Nodes → Option Nodes
  | [], nodes => f nodes
  | key :: more, nodes =>
    nodes.update key fun
      | none => (Nodes.atPath f more []).map (.table .implied)
      | some (.table origin inner) => (Nodes.atPath f more inner).map (.table origin)
      | some (.tables last others) =>
        (Nodes.atPath f more last).map fun last => .tables last others
      | some (.value _) => none

def Nodes.openTable (key : String) (nodes : Nodes) : Option Nodes :=
  nodes.update key fun
    | none => some (.table .header [])
    | some (.table .implied inner) => some (.table .header inner)
    | some _ => none

def Nodes.addTable (key : String) (nodes : Nodes) : Option Nodes :=
  nodes.update key fun
    | none => some (.tables [] [])
    | some (.tables last others) => some (.tables [] (last :: others))
    | some _ => none

mutual

def Node.finish : Node → Toml
  | .value v => v
  | .table _ nodes => .table (finishAll nodes)
  | .tables last others => .array ((Toml.table (finishAll last) :: finishTables others).reverse)

def finishAll : List (String × Node) → List (String × Toml)
  | [] => []
  | (key, node) :: rest => (key, node.finish) :: finishAll rest

def finishTables : List (List (String × Node)) → List Toml
  | [] => []
  | nodes :: rest => .table (finishAll nodes) :: finishTables rest

end

def skipSpace (s : List Char) : List Char := s.dropWhile isSpace

def isBareKey (c : Char) : Bool := isDigit c || isLower c || isUpper c || c == '_' || c == '-'

def keyPart? : List Char → Reading String
  | '"' :: rest => (basicBody rest).map fun (body, after) => (String.ofList body, after)
  | '\'' :: rest => (literalBody rest).map fun (body, after) => (String.ofList body, after)
  | s =>
    match s.takeWhile isBareKey with
    | [] => none
    | key => some (String.ofList key, s.dropWhile isBareKey)

def keyPath? : Nat → List Char → Reading (List String)
  | 0, _ => none
  | n + 1, s =>
    (keyPart? (skipSpace s)).bind fun (part, rest) =>
      match skipSpace rest with
      | '.' :: more => (keyPath? n more).map fun (parts, after) => (part :: parts, after)
      | after => some ([part], after)

def afterComment? : List Char → Option (List Char)
  | '#' :: rest =>
    match rest.dropWhile isPlain with
    | [] => some []
    | after => if (afterLineEnd? after).isSome then some after else none
  | s => some s

def skipLines? : Nat → List Char → Option (List Char)
  | 0, _ => none
  | n + 1, s =>
    let s := skipSpace s
    match afterLineEnd? s with
    | some rest => skipLines? n rest
    | none =>
      match s with
      | '#' :: _ => (afterComment? s).bind (skipLines? n)
      | s => some s

def arrayItems? (item? : List Char → Reading Toml) : Nat → List Char → Reading (List Toml)
  | 0, _ => none
  | n + 1, s =>
    (skipLines? (s.length + 1) s).bind fun s =>
      match s with
      | ']' :: rest => some ([], rest)
      | s =>
        (item? s).bind fun (item, rest) =>
          (skipLines? (rest.length + 1) rest).bind fun rest =>
            match rest with
            | ',' :: more => (arrayItems? item? n more).map fun (items, after) =>
                (item :: items, after)
            | ']' :: after => some ([item], after)
            | _ => none

def keyValue? (item? : List Char → Reading Toml) (s : List Char) : Reading (List String × Toml) :=
  (keyPath? (s.length + 1) s).bind fun (path, rest) =>
    match rest with
    | '=' :: rest => (item? (skipSpace rest)).map fun (v, after) => ((path, v), after)
    | _ => none

def inlineEntries? (item? : List Char → Reading Toml) (nodes : Nodes) :
    Nat → List Char → Reading Nodes
  | 0, _ => none
  | n + 1, s =>
    (keyValue? item? s).bind fun ((path, v), rest) =>
      (Nodes.insert true nodes v path).bind fun nodes =>
        match skipSpace rest with
        | ',' :: more => inlineEntries? item? nodes n more
        | '}' :: after => some (nodes, after)
        | _ => none

def value? : Nat → List Char → Reading Toml
  | 0, _ => none
  | depth + 1, s =>
    match s with
    | '[' :: rest =>
      if depth == 0 then none
      else (arrayItems? (value? depth) (rest.length + 1) rest).map fun (items, after) =>
        (.array items, after)
    | '{' :: rest =>
      if depth == 0 then none
      else
        match skipSpace rest with
        | '}' :: after => some (.table [], after)
        | rest =>
          (inlineEntries? (value? depth) [] (rest.length + 1) rest).map fun (nodes, after) =>
            (.table (finishAll nodes), after)
    | c :: _ =>
      if c == '"' || c == '\'' then
        (unquoted? s).map fun (body, after) => (.string (String.ofList body), after)
      else
        let (text, after) := bareText s
        (bareValue? text).map fun v => (v, after)
    | [] => none

def depthLimit : Nat := 80

structure Draft where
  nodes : Nodes
  path : List String

def Draft.empty : Draft := ⟨[], []⟩

def Draft.enter (draft : Draft) (path : List String) (another : Bool) : Option Draft :=
  match path.getLast? with
  | none => none
  | some key =>
    let enter := if another then Nodes.addTable key else Nodes.openTable key
    (Nodes.atPath enter path.dropLast draft.nodes).map fun nodes => ⟨nodes, path⟩

def Draft.write (draft : Draft) (path : List String) (v : Toml) : Option Draft :=
  (Nodes.atPath (Nodes.insert true · v path) draft.path draft.nodes).map fun nodes =>
    { draft with nodes }

def afterLine? (s : List Char) : Option (List Char) :=
  (afterComment? (skipSpace s)).bind fun
    | [] => some []
    | rest => afterLineEnd? rest

def line? (draft : Draft) (s : List Char) : Reading Draft :=
  match s with
  | '[' :: '[' :: rest =>
    (keyPath? (rest.length + 1) rest).bind fun (path, rest) =>
      match rest with
      | ']' :: ']' :: after => (draft.enter path true).map fun draft => (draft, after)
      | _ => none
  | '[' :: rest =>
    (keyPath? (rest.length + 1) rest).bind fun (path, rest) =>
      match rest with
      | ']' :: after => (draft.enter path false).map fun draft => (draft, after)
      | _ => none
  | s =>
    (keyValue? (value? depthLimit) s).bind fun ((path, v), after) =>
      (draft.write path v).map fun draft => (draft, after)

def lines? : Nat → Draft → List Char → Option Draft
  | 0, _, _ => none
  | n + 1, draft, s =>
    match skipLines? (s.length + 1) s with
    | none => none
    | some [] => some draft
    | some s =>
      (line? draft s).bind fun (draft, rest) => (afterLine? rest).bind (lines? n draft)

def read? (s : List Char) : Option (List (String × Toml)) :=
  (lines? (s.length + 1) Draft.empty s).map fun draft => finishAll draft.nodes

end DeclSchema.Toml
