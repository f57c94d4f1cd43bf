import DeclSchema.Definition

/-! # Definitions of a source

Every declaration of a source, however deep it lies, says something about one name. The
declarations are taken one after another, each before those inside of it: structures merge,
fixed lists of values and type literals replace what was there, and any other alias only
reserves its name. When all are taken, every structure receives the properties of its
bases, where its own properties and those of earlier bases come before the rest.
-/
namespace DeclSchema
open Syntax

inductive Declaration
  /-- An interface or a class: its bases and its own properties. -/
  | shape (name : String) (heritage : List String) (properties : Table Property)
  /-- The name stands for exactly this. -/
  | definite (name : String) (definition : Definition)
  | bare (name : String)
deriving Repr, DecidableEq

/-- The members that have a type; of members with one name the last one counts. -/
def typedProperties (members : List Member) : Table Property :=
  Table.ofEntries <| members.filterMap fun m =>
    m.type?.map fun type => (m.name, ⟨type.text, m.optional⟩)

def Value.ofOperand (operand : TypeNode) : Value :=
  match operand.unparenthesized with
  | .literal _ value => ofLiteral value
  | _ => string (Text.unquote operand.text)

def Value.ofMember (m : EnumMember) : Value :=
  match m.value? with
  | some value => ofLiteral value
  | none => string m.name

namespace Declaration

def ofAlias (name : String) (type : TypeNode) : Declaration :=
  match type.unparenthesized with
  | .union _ operands => definite name (.enumerated (operands.map Value.ofOperand))
  | .object _ members => definite name (.structural (typedProperties members))
  | _ => bare name

/-- A constant counts if its keys are known, from its annotation before its value. -/
def ofConstant? (name : String) (type? : Option TypeNode)
    (initializer : Option Initializer) : Option Declaration :=
  let keys? : Option (List String) :=
    match type?, initializer with
    | some type, _ =>
      match type.unparenthesized with
      | .object _ members => some (members.map (·.name))
      | _ => none
    | none, some (.keys names) => some names
    | none, _ => none
  keys?.map fun keys => definite name (.enumerated (keys.map .string))

mutual

def ofItem : Item → List Declaration
  | .interfaceDecl name heritage members => [shape name heritage (typedProperties members)]
  | .classDecl name heritage members nested =>
    shape name heritage (typedProperties members) :: ofItems nested
  | .aliasDecl name type => [ofAlias name type]
  | .enumDecl name _ members => [definite name (.enumerated (members.map Value.ofMember))]
  | .constantDecl name type? initializer =>
    (ofConstant? name type? initializer).toList
  | .namespaceDecl _ items => ofItems items
  | .functionDecl _ body => ofItems body

def ofItems : List Item → List Declaration
  | [] => []
  | item :: rest => ofItem item ++ ofItems rest

end

end Declaration

namespace Definitions

def record (definitions : Definitions) : Declaration → Definitions
  | .shape name _ properties =>
    match definitions.value? name with
    | some (.structural existing) =>
      definitions.put name (.structural (Table.putAll existing properties))
    | some (.enumerated _) => definitions
    | none => definitions.put name (.structural properties)
  | .definite name d => definitions.put name d
  | .bare name => definitions.putNew name .empty

def ofDeclarations (declarations : List Declaration) : Definitions := declarations.foldl record []

end Definitions

abbrev Heritage := Table (List String)

namespace Heritage

def record (heritage : Heritage) : Declaration → Heritage
  | .shape name bases _ =>
    if bases.isEmpty then heritage
    else
      let known := (heritage.value? name).getD []
      heritage.put name <| bases.foldl
        (fun known base => if known.contains base then known else known ++ [base]) known
  | _ => heritage

def ofDeclarations (declarations : List Declaration) : Heritage := declarations.foldl record []

end Heritage

abbrev Inherited := Table (Table Property)

namespace Definitions

def ownProperties? (definitions : Definitions) (name : String) : Option (Table Property) :=
  (definitions.value? name).bind Definition.properties?

/-- The properties of a structure with those of its bases. On the path there are the names
whose bases are being collected; one that comes again contributes its own properties only.
The depth bounds the length of the path. -/
def collect (definitions : Definitions) (heritage : Heritage) :
    Nat → List String → String → StateM Inherited (Option (Table Property))
  | 0, _, name => return definitions.ownProperties? name
  | depth + 1, path, name => do
    if let some done := (← get).value? name then return some done
    match definitions.ownProperties? name, heritage.value? name with
    | none, _ => return none
    | some own, none => return some own
    | some own, some bases =>
      if path.contains name then return some own
      let tables ← bases.mapM (collect definitions heritage depth (name :: path))
      let inherited := (tables.filterMap id).foldl Table.putAllNew []
      let merged := Table.putAll inherited own
      modify fun known => Table.put known name merged
      return some merged

def inheritedTables (definitions : Definitions) (heritage : Heritage) : Inherited :=
  let collectAll : StateM Inherited Unit :=
    heritage.names.forM fun name => discard (collect definitions heritage (heritage.length + 1) [] name)
  (collectAll.run []).2

def inherit (definitions : Definitions) (heritage : Heritage) : Definitions :=
  let tables := inheritedTables definitions heritage
  definitions.map fun (name, d) =>
    match d, tables.value? name with
    | .structural _, some properties => (name, .structural properties)
    | d, _ => (name, d)

def ofItems (items : List Item) : Definitions :=
  let declarations := Declaration.ofItems items
  (ofDeclarations declarations).inherit (Heritage.ofDeclarations declarations)

end Definitions
end DeclSchema
