import DeclSchema.Decimal.Shortest
import DeclSchema.Settings.Basic
import DeclSchema.Toml.Basic
import DeclSchema.Text.Chars

/-! # Layers of settings

Settings come from several sources, which are laid over each other: a later source replaces
what it names and leaves the rest. Keys are compared without regard to case. In the end each
setting is converted to its type, as generously as its value allows.
-/
namespace DeclSchema
open Text

namespace Toml

def isTable : Toml → Bool
  | table _ => true
  | _ => false

def entries : Toml → List (String × Toml)
  | table entries => entries
  | _ => []

mutual

/-- Writes a value under a name. A table is laid over what stands there, entry by entry. -/
def setName (under : Toml) (name : String) : Toml → Toml
  | table entries =>
    let old := (Table.value? under.entries (lower name)).getD (table [])
    table (Table.put under.entries (lower name) (setAll old entries))
  | value => table (Table.put under.entries (lower name) value)

def setAll (under : Toml) : List (String × Toml) → Toml
  | [] => under
  | (name, value) :: rest => setAll (setName under name value) rest

end

end Toml

inductive Step
  | entry (name : String)
  | item (index : Nat)
deriving Repr, DecidableEq

def isPathChar (c : Char) : Bool :=
  isDigit c || isLower c || isUpper c || c == '_' || c == '-' || c == ' '

def steps? : Nat → List Char → Option (List Step)
  | _, [] => some []
  | 0, _ => none
  | n + 1, '.' :: rest =>
    let name := rest.takeWhile isPathChar
    if name.isEmpty then none
    else (steps? n (rest.dropWhile isPathChar)).map (.entry (String.ofList name) :: ·)
  | n + 1, '[' :: rest =>
    let digits := (trimStart rest).takeWhile isDigit
    match trimStart ((trimStart rest).dropWhile isDigit) with
    | ']' :: more =>
      if digits.isEmpty then none
      else (steps? n more).map (.item (digitsValue 10 digits) :: ·)
    | _ => none
  | _, _ => none

/-- The path that a key denotes: names with points between them, and indices in brackets.
A key that is no path is a name as a whole. -/
def pathOf (key : String) : List Step :=
  let s := key.toList
  let name := s.takeWhile isPathChar
  if name.isEmpty then [.entry key]
  else
    match steps? s.length (s.dropWhile isPathChar) with
    | some steps => .entry (String.ofList name) :: steps
    | none => [.entry key]

def Toml.setPath (under : Toml) (v : Toml) : List Step → Toml
  | [] => v
  | [.entry name] => under.setName name v
  | .entry name :: more =>
    let old := (Table.value? under.entries (lower name)).getD .absent
    .table (Table.put under.entries (lower name) (old.setPath v more))
  | .item index :: more =>
    let items := match under with
      | .array items => items
      | _ => []
    let items := items ++ List.replicate (index + 1 - items.length) .absent
    .array (items.set index ((items.getD index .absent).setPath v more))

abbrev Layer := List (String × Toml)

def Toml.overlay (under : Toml) (layer : Layer) : Toml :=
  layer.foldl (fun under (key, v) => under.setPath v (pathOf key)) under

def environmentHead : List Char := "tsoas__".toList

/-- The key that the name of an environment variable denotes: its separators become points. -/
def environmentKey? (name : String) : Option String :=
  (afterHead? environmentHead (name.toList.map lowerChar)).map fun rest =>
    String.ofList (points rest)
where
  points : List Char → List Char
    | '_' :: '_' :: rest => '.' :: points rest
    | c :: rest => c :: points rest
    | [] => []

def environmentValue (text : String) : Toml :=
  match lower text with
  | "true" => .boolean true
  | "false" => .boolean false
  | _ =>
    match Decimal.integer? text.toList with
    | some n => .integer n
    | none =>
      match Decimal.double? text.toList with
      | some x => .float x
      | none => .string text

/-- The settings in an environment; of two variables with one key the later one counts. -/
def environmentLayer (environment : List (String × String)) : Layer :=
  Table.ofEntries <| environment.filterMap fun (name, text) =>
    (environmentKey? name).map fun key => (key, environmentValue text)

def Decimal.Double.plainText : Decimal.Double → String
  | .finite d => d.write .plain
  | .infinite negative => if negative then "-inf" else "inf"
  | .notANumber => "NaN"

namespace Toml

def text? : Toml → Option String
  | string s => some s
  | boolean b => some (if b then "true" else "false")
  | integer n => some (toString n)
  | float x => some x.plainText
  | _ => none

/-- A truth value: also a number, which is true unless it is zero, and some words. -/
def truth? : Toml → Option Bool
  | boolean b => some b
  | integer n => some (n != 0)
  | float (.finite d) => some !d.isZero
  | float _ => some true
  | string s =>
    match lower s with
    | "1" | "true" | "on" | "yes" => some true
    | "0" | "false" | "off" | "no" => some false
    | _ => none
  | _ => none

/-- The word that selects one of several choices: a string, or the only key of a table. -/
def choice? : Toml → Option String
  | string s => some (lower s)
  | table [(name, _)] => some (lower name)
  | _ => none

/-- The values of a section by the names of its settings. Without names they count by their
places. -/
def section? (names : List String) : Toml → Option (List (Option Toml))
  | table entries => some (names.map fun name => Table.value? entries name)
  | array items => some ((List.range names.length).map fun i => items[i]?)
  | _ => none

end Toml

def Format.ofValue? (v : Toml) : Option Format :=
  v.choice?.bind fun word =>
    if word == Format.pretty.name then some .pretty
    else if word == Format.compact.name then some .compact
    else none

def DocumentLayout.ofValue? (v : Toml) : Option DocumentLayout :=
  v.choice?.bind fun word =>
    if word == DocumentLayout.schemas.name then some .schemas
    else if word == DocumentLayout.components.name then some .components
    else none

def settingOr {α : Type} (fallback : α) (convert : Toml → Option α) : Option Toml → Option α
  | none => some fallback
  | some v => convert v

def Settings.ofValue? (v : Toml) : Option Settings := do
  let sectionOf (name : String) (names : List String) : Option (List (Option Toml)) :=
    match Table.value? v.entries name with
    | none => some (names.map fun _ => none)
    | some v => v.section? names
  let defaults : Settings := {}
  let schema ← sectionOf "schema" ["ref_prefix"]
  let output ← sectionOf "output" ["format", "layout"]
  let analysis ← sectionOf "analysis" ["warn_dangling"]
  match schema, output, analysis with
  | [base], [format, layout], [warnDangling] =>
    return {
      base := ← settingOr defaults.base Toml.text? base
      format := ← settingOr defaults.format Format.ofValue? format
      layout := ← settingOr defaults.layout DocumentLayout.ofValue? layout
      warnDangling := ← settingOr defaults.warnDangling Toml.truth? warnDangling }
  | _, _, _ => none

def Settings.ofLayers? (layers : List Layer) : Option Settings :=
  Settings.ofValue? (layers.foldl Toml.overlay (.table []))

end DeclSchema
