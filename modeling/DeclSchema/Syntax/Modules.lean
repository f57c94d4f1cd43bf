import DeclSchema.Syntax.Declarations

/-! # Imports and exports

What a module takes from others and gives to them. Only declarations that are exported, or
declared inside of exported values, leave a trace.
-/
namespace DeclSchema.Syntax
open Text

def moduleName : Parser Unit := do
  if ← atKind .string then discard take else discard anyWord

def specifier : Parser Unit := do
  let second ← following
  if (← current).isOneOf ["type", "typeof"]
      && (second.kind == .string || (second.kind == .word && !second.isWord "as")) then
    discard take
  moduleName
  if ← acceptWord "as" then
    moduleName
    if ← acceptWord "as" then moduleName

/-- The names between the braces of an import or export. A comma may stand there alone. -/
def specifiers : Parser Unit := do
  expect "\x7b"
  if ← accept "\x7d" then return
  if (← atMark ",") && (← following).isMark "\x7d" then discard take
  else discard <| enclosed (commaList "\x7d" specifier)
  expect "\x7d"

def moduleSource (g : Grammar) : Parser Unit := do
  anyString
  if (← atWord "with") || (← atWord "assert") then
    if (← following).isMark "\x7b" then
      discard take
      discard (objectLiteral g)

def fromClause (g : Grammar) : Parser Unit := do
  expectWord "from"
  moduleSource g

def importedNames : Parser Unit := do
  if ← accept "*" then
    expectWord "as"
    discard anyWord
  else specifiers

def importTarget : Parser Unit := do
  if (← atWord "require") && (← following).isMark "(" then
    discard take
    discard take
    anyString
    expect ")"
  else qualifiedName

def importStatement (g : Grammar) : Parser Unit := do
  expectWord "import"
  let second ← following
  if (← current).isOneOf ["type", "typeof"] && !second.isWord "from"
      && (second.kind == .word || second.isMark "\x7b" || second.isMark "*") then
    discard take
  if ← atKind .string then moduleSource g
  else if ← atKind .word then
    discard take
    if ← accept "=" then importTarget
    else
      if ← accept "," then importedNames
      fromClause g
  else
    importedNames
    fromClause g
  terminator .afterType

def atAmbient : Parser Bool := return (← atWord "declare") && (← namesFollowing)

def ambientFrom (g : Grammar) : Parser Unit := do
  discard <| many do
    if ← atAmbient then
      discard take
      return some ()
    else return none
  if (← atWord "global") && (← following).isMark "\x7b" then
    discard take
    block g
  else if ← atWord "import" then importStatement g
  else if (← atWord "module") && (← following).isMark "." then
    discard take
    discard take
    discard anyWord
    discard <| inScope (fun _ => { lineEnd := .afterType }) (statedType g)
    terminator .afterType
  else if !(← declaration? g) then stuck

def exportDefault (g : Grammar) : Parser Unit := do
  if ← atMark "@" then
    let (_, decoration) ← gather (decorators g)
    classDeclaration g decoration
  else if ← atAmbient then
    discard take
    ambientFrom g
  else if ← declaration? g then return
  else
    discard <| inScope (fun _ => { lineEnd := .afterValue }) (anyValue g)
    terminator .afterValue

def exportFrom (g : Grammar) : Parser Unit := do
  let second ← following
  if ← accept "*" then
    if ← acceptWord "as" then moduleName
    fromClause g
    terminator .afterType
  else if (← atMark "\x7b")
      || ((← atWord "type") && (second.isMark "\x7b" || second.isMark "*")) then
    discard <| acceptWord "type"
    if ← accept "*" then
      if ← acceptWord "as" then moduleName
      fromClause g
    else
      specifiers
      if ← atWord "from" then fromClause g
    terminator .afterType
  else if ← accept "=" then
    discard <| inScope (fun _ => { lineEnd := .afterValue }) (anyValue g)
    terminator .afterValue
  else if (← atWord "as") && second.isWord "namespace" then
    discard take
    discard take
    discard anyWord
    terminator .afterType
  else if ← acceptWord "default" then exportDefault g
  else if ← atWord "import" then importStatement g
  else if ← atMark "@" then
    let (_, decoration) ← gather (decorators g)
    classDeclaration g decoration
  else if ← atAmbient then
    discard take
    ambientFrom g
  else if !(← declaration? g) then stuck

end DeclSchema.Syntax
