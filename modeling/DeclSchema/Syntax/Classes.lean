import DeclSchema.Syntax.Functions
import DeclSchema.Syntax.Types

/-! # Classes

A class with a name is a declaration. What its members declare inside of them belongs to
it: the bodies and parameters of methods, their decorators, and the values of fields, but
nothing in the decorator, the name or the type of a field. A class without a name is no
declaration; whatever stands in it counts as standing outside.
-/
namespace DeclSchema.Syntax
open Text

def abstractOrder : ModifierOrder :=
  [accessWords, ["abstract"], ["override"], ["get", "set", "*"]]

def fieldOrders : List ModifierOrder :=
  let heads : List ModifierOrder := [[["declare"], accessWords], [accessWords, ["declare"]]]
  let tails : List ModifierOrder :=
    [[["static"], ["override"], ["readonly"]], [["abstract"], ["readonly"]],
      [["readonly"], ["abstract"]], [["accessor"]]]
  heads.flatMap fun head => tails.map fun tail => head ++ tail

def memberOrders : List ModifierOrder := [methodOrder, abstractOrder] ++ fieldOrders

/-- The name in the text of an entry: what stands before the first type argument in it. -/
def heritageName? (text : String) : Option String :=
  let name := trim (text.toList.takeWhile (· != '<'))
  if name.isEmpty then none else some (String.ofList name)

def heritageNames (entries : List String) : List String :=
  (entries.filterMap heritageName?).foldl
    (fun names name => if names.contains name then names else names ++ [name]) []

/-- What a class extends: a value, without the type arguments at its end. -/
def extendedClass (g : Grammar) : Parser String := do
  let start ← get
  let base ← g.value
  match base.applied? with
  | some text => return text
  | none => return start.textTo (← get)

def implementedType (g : Grammar) : Parser String := do
  match ← g.type with
  | .reference _ name (_ :: _) => return name
  | type => return type.text

def heritageEntries (entry : Parser String) : Parser (List String) := do
  let first ← entry
  let more ← many do
    if ← accept "," then return some (← entry) else return none
  return first :: more

def classHeritage (g : Grammar) : Parser (List String) := enclosed do
  let bases ←
    if ← acceptWord "extends" then heritageEntries (extendedClass g) else pure []
  let interfaces ←
    if ← acceptWord "implements" then heritageEntries (implementedType g) else pure []
  return heritageNames (bases ++ interfaces)

def memberEnd (lineEnd : LineEnd) : Parser Unit := do
  if ← accept ";" <||> accept "," then return
  else if (← get).endsBefore lineEnd then return
  else if ← atKind .word then missing ","
  else unexpected

def field (g : Grammar) (named : Bool) (name : String) : Parser Member := do
  let optional ← accept "?"
  if !optional then discard <| accept "!"
  let type? ← if named then unseen (statedType? g) else statedType? g
  if ← accept "=" then
    discard <| inScope (fun _ => { lineEnd := .afterValue }) g.value
    memberEnd .afterValue
  else memberEnd .afterType
  return ⟨name, optional, type?⟩

def method (g : Grammar) (words : List String) : Parser Unit := do
  discard <| accept "?"
  signature g
  if words.contains "abstract" then memberEnd .afterType
  else if !methodOrder.admits words then unexpected
  else if ← atMark "\x7b" then block g
  else memberEnd .afterHead

/-- A method or a field from its name on. What the name of a field declares is dropped. -/
def declaredMember (g : Grammar) (named : Bool) (decoration : List Item) (words : List String) :
    Parser (Option Member) := do
  if !(← current).startsName then misplaced "\x7d"
  let (name, naming) ← gather (propertyName g)
  let isMethod := (← atSignature) || ((← atMark "?") && ["(", "<"].any (← following).isMark)
  if isMethod || !named then
    emitAll decoration
    emitAll naming
  if isMethod then
    method g words
    return none
  else if !fieldOrders.any (·.admits words) then unexpected
  else return some (← field g named name)

def classMember (g : Grammar) (named : Bool) : Parser (Option Member) := do
  if ← accept ";" then return none
  else if (← atWord "static") && (← following).isMark "\x7b" then
    discard take
    block g
    return none
  else
    let (_, decoration) ← gather (decorators g)
    let words ← modifiers memberOrders
    if ← atIndexSignature then
      if !indexOrder.admits words then unexpected
      emitAll decoration
      indexSignature g
      memberEnd .afterType
      return none
    else declaredMember g named decoration words

def classBody (g : Grammar) (named : Bool) : Parser (List Member) := do
  expect "\x7b"
  let members ← inScope (fun _ => { lineEnd := .afterType }) <| many do
    if ← atEnd then return none else return some (← classMember g named)
  expect "\x7d"
  return members.filterMap id

/-- A class from the word `class` on; what its decorators declare is given. -/
def classFrom (g : Grammar) (decoration : List Item) : Parser Unit := do
  expectWord "class"
  let named := (← atKind .word) && !(← current).isOneOf ["extends", "implements"]
  if named then
    let name ← anyWord
    let heritage ← unseen do
      typeParameters? g
      classHeritage g
    let (members, nested) ← gather (classBody g true)
    emit (.classDecl name heritage members (decoration ++ nested))
  else
    emitAll decoration
    typeParameters? g
    discard <| classHeritage g
    discard <| classBody g false

end DeclSchema.Syntax
