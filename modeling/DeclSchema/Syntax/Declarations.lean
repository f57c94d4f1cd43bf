import DeclSchema.Syntax.Values

/-! # Declarations

Interfaces, type aliases and enums are declarations in which nothing else is declared.
Functions, namespaces and constants may contain further declarations: those of a function
or a namespace belong to it, those in the value of a constant stand beside it.
-/
namespace DeclSchema.Syntax
open Text

def extendedInterface (g : Grammar) : Parser String := do
  if !(← atKind .word) then missing "type_identifier"
  let start ← get
  qualifiedName
  let name := start.textTo (← get)
  if ← atMark "<" then discard <| typeArguments g
  return name

def interfaceDeclaration (g : Grammar) : Parser Unit := do
  expectWord "interface"
  let name ← anyWord
  let (heritage, members) ← unseen do
    typeParameters? g
    let heritage ← enclosed do
      if ← acceptWord "extends" then heritageEntries (extendedInterface g) else return []
    return (heritageNames heritage, ← typeMembers g)
  emit (.interfaceDecl name heritage members)

def aliasDeclaration (g : Grammar) : Parser Unit := do
  expectWord "type"
  let name ← anyWord
  let type ← unseen do
    typeParameters? g
    expect "="
    if !(← current).startsType then missing "type_identifier"
    inScope (fun _ => { lineEnd := .afterType }) g.type
  emit (.aliasDecl name type)
  terminator .afterType

def enumMember (g : Grammar) : Parser EnumMember := do
  if !(← current).startsName then misplaced "\x7d"
  let name ← propertyName g
  let value ← initializer? g
  return ⟨name, value.bind (·.literal?)⟩

/-- Whether another member follows. Of two commas in a row the first one is the fault. -/
def enumSeparator : Parser Bool := do
  if ← atEnd then return false
  else if ← atMark "," then
    let separator ← get
    discard take
    if ← atMark "," then throw (.unexpected separator.offset separator.token.text)
    return !(← atEnd)
  else if ← atKind .word then missing "\x7d"
  else unexpected

def enumMembers (g : Grammar) : Parser (List EnumMember) := do
  expect "\x7b"
  let members ← enclosed do
    if ← atEnd then return []
    let first ← enumMember g
    let more ← many do
      if ← enumSeparator then return some (← enumMember g) else return none
    return first :: more
  expect "\x7d"
  return members

def enumDeclaration (g : Grammar) : Parser Unit := do
  let isConst ← acceptWord "const"
  expectWord "enum"
  let name ← anyWord
  emit (.enumDecl name isConst (← unseen (enumMembers g)))

def functionDeclaration (g : Grammar) : Parser Unit := do
  discard <| acceptWord "async"
  expectWord "function"
  discard <| accept "*"
  let name ← anyWord
  let (hasBody, items) ← gather do
    inScope (fun _ => { lineEnd := .afterHead }) (signature g)
    if ← atMark "\x7b" then
      block g
      return true
    else
      terminator .afterHead
      return false
  if hasBody then emit (.functionDecl name items) else emitAll items

def namespaceFrom (g : Grammar) : Parser Unit := do
  let start ← get
  if ← atKind .string then discard take else qualifiedName
  let name := unquote (start.textTo (← get))
  let (_, items) ← gather do
    if ← atMark "\x7b" then block g
  emit (.namespaceDecl name items)

def classDeclaration (g : Grammar) (decoration : List Item) : Parser Unit := do
  if ← acceptWord "abstract" then
    if (← following).kind != .word then stuck
  classFrom g decoration

/-- One name or pattern with its type and its value. The first name of a statement is a
constant of the source. The answer says how the statement may end after it. -/
def declarator (g : Grammar) (first : Bool) : Parser LineEnd := do
  let named ← atKind .word
  let name := String.ofList (← current).text
  unseen g.pattern
  if named then discard <| accept "!"
  let type? ← inScope (fun scope => { scope with
    lineEnd := if scope.lineEnd == .never then .never else .afterType })
    (unseen (statedType? g))
  let (value, items) ← gather (initializer? g)
  if first && named then
    emit <| .constantDecl name type? <| value.map fun value =>
      match value.keys? with
      | some keys => .keys keys
      | none => .expression
  emitAll items
  return if value.isSome then .afterValue else .afterType

def declarators (g : Grammar) : Parser LineEnd := do
  let first ← declarator g true
  let more ← many do
    if ← accept "," then return some (← declarator g false) else return none
  return more.getLastD first

def variableDeclaration (g : Grammar) : Parser Unit := do
  discard take
  let lineEnd ← inScope (fun _ => { lineEnd := .afterValue }) (declarators g)
  terminator lineEnd

def namesFollowing : Parser Bool := do
  let second := (← get).next
  return second.token.kind == .word && !second.endsBefore .afterType

def stringFollowing : Parser Bool := do
  let second := (← get).next
  return second.token.kind == .string && !second.endsBefore .afterType

def declaration? (g : Grammar) : Parser Bool := do
  let s ← get
  let second := s.next.token
  let third := s.next.next.token
  let commits (p : Parser Unit) : Parser Bool := do
    p
    return true
  if s.token.kind != .word then return false
  match String.ofList s.token.text with
  | "interface" => commits (interfaceDeclaration g)
  | "type" => if ← namesFollowing then commits (aliasDeclaration g) else return false
  | "enum" => commits (enumDeclaration g)
  | "const" =>
    if second.isWord "enum" then commits (enumDeclaration g)
    else commits (variableDeclaration g)
  | "var" => commits (variableDeclaration g)
  | "let" =>
    if (← namesFollowing) || second.isMark "\x7b" || second.isMark "[" then
      commits (variableDeclaration g)
    else return false
  | "function" =>
    if second.kind == .word || (second.isMark "*" && third.kind == .word) then
      commits (functionDeclaration g)
    else return false
  | "async" =>
    if second.isWord "function" && !s.next.endsBefore .afterValue
        && (third.kind == .word || (third.isMark "*" && s.next.next.next.token.kind == .word)) then
      commits (functionDeclaration g)
    else return false
  | "class" =>
    if second.kind == .word && !second.isOneOf ["extends", "implements"] then
      commits (classDeclaration g [])
    else return false
  | "abstract" => commits (classDeclaration g [])
  | "namespace" | "module" =>
    if (← namesFollowing) || (← stringFollowing) then
      commits do
        discard take
        namespaceFrom g
    else return false
  | _ => return false

end DeclSchema.Syntax
