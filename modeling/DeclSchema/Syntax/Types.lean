import DeclSchema.Syntax.Signature

/-! # Types

A type is read from its loosest operator inwards: a condition, a union, an intersection,
an operand. The types of functions and `readonly` reach as far to the right as they can.
Unions and intersections list their operands in one row; a mark that stands in front of
the first operand belongs to the text and not to the operands.
-/
namespace DeclSchema.Syntax
open Text

def propertyOrder : ModifierOrder := [accessWords, ["static"], ["override"], ["readonly"]]

def indexOrder : ModifierOrder := [["readonly"]]

/-- Whether an index signature stands here, or a name that runs over a type. -/
def atIndexSignature : Parser Bool := do
  let word := (← get).next
  let mark := word.next.token
  return (← atMark "[") && word.token.kind == .word && (mark.isMark ":" || mark.isWord "in")

def indexSignature (g : Grammar) : Parser Unit := do
  expect "["
  enclosed do
    discard anyWord
    if ← accept ":" then discard g.type
    else
      expectWord "in"
      discard g.type
      if ← acceptWord "as" then discard g.type
  expect "]"
  discard <| accept "-" <||> accept "+"
  discard <| accept "?"
  discard <| statedType g

def namedMember (g : Grammar) (words : List String) : Parser (Option Member) := do
  if !(← current).startsName then misplaced "\x7d"
  let name ← propertyName g
  if ← atMark "??" then throw (.unexpected ((← get).offset + 1) ['?'])
  let optional ← accept "?"
  if ← atSignature then
    signature g
    return none
  else if !propertyOrder.admits words then unexpected
  else return some ⟨name, optional, ← statedType? g⟩

/-- A member with modifiers in front of it. Only an index signature may have a sign, too. -/
def modifiedMember (g : Grammar) (signed : Bool) : Parser (Option Member) := do
  let words ← modifiers [methodOrder]
  if ← atIndexSignature then
    if !indexOrder.admits words then unexpected
    indexSignature g
    return none
  else if signed then unexpected
  else namedMember g words

def typeMember (g : Grammar) : Parser (Option Member) := do
  let second ← following
  if ← atSignature then
    signature g
    return none
  else if (← atWord "abstract")
      || ((← atWord "new") && (second.isMark "(" || second.isMark "<")) then
    discard <| acceptWord "abstract"
    expectWord "new"
    signature g
    return none
  else
    let signed := second.isWord "readonly" && ((← atMark "-") || (← atMark "+"))
    if signed then discard take
    modifiedMember g signed

/-- Whether another member may follow. A word without a separator before it belongs after
the closing brace; of two separators in a row the first one is the fault. -/
def memberSeparator : Parser Bool := do
  if ← atEnd then return false
  if (← atMark ";") || (← atMark ",") then
    let separator ← get
    discard take
    if (← atMark ";") || (← atMark ",") then
      throw (.unexpected separator.offset separator.token.text)
    return !(← atEnd)
  if ← endsHere then return true
  if ← atKind .word then missing "\x7d" else unexpected

def typeMembers (g : Grammar) : Parser (List Member) := do
  if !(← accept "\x7b") then missing "\x7b"
  let members ← inScope (fun _ => { lineEnd := .afterType }) do
    if ← atEnd then return []
    let leading ← get
    let separated ← accept ";" <||> accept ","
    if separated && (← atMark "\x7d") then
      throw (.unexpected leading.offset leading.token.text)
    let first ← typeMember g
    let more ← many do
      if ← memberSeparator then return some (← typeMember g) else return none
    return (first :: more).filterMap id
  expect "\x7d"
  return members

def qualifiedName : Parser Unit := do
  discard anyWord
  discard <| many do
    if (← atMark ".") && (← following).kind == .word then
      discard take
      discard take
      return some ()
    else return none

/-- The width of the text of a template up to its end or its next part, and what stands there. -/
def templateText : List Char → Nat × Option Char
  | [] => (0, none)
  | '\x60' :: _ => (0, some '\x60')
  | '$' :: '{' :: _ => (0, some '$')
  | '\\' :: c :: rest =>
    if (Escape.afterEscape? (c :: rest)).isSome then
      let (width, stop) := templateText rest
      (width + 2, stop)
    else (0, none)
  | _ :: rest =>
    let (width, stop) := templateText rest
    (width + 1, stop)

/-- Text of a template behind a mark, with the part in braces that interrupts it. Nothing is
given if the closing back quote was reached instead. -/
def templatePart (inner : Parser Unit) : Parser (Option Unit) := do
  let s ← get
  match templateText (s.here.drop 1) with
  | (width, some '\x60') =>
    takeChars (1 + width + 1)
    return none
  | (width, some _) =>
    takeChars (1 + width + 2)
    enclosed inner
    if !(← atMark "\x7d") then stuck
    return some ()
  | (width, none) =>
    let offset := s.offset + 1 + width
    if (s.here.drop (1 + width)).isEmpty then throw (.unfinished offset "")
    else throw (.unexpected offset ['\\'])

def templateParts (inner : Parser Unit) : Parser Unit := discard <| many (templatePart inner)

/-- An element of a tuple. With a name, a question mark or dots it is no plain type. -/
def tupleElement (g : Grammar) : Parser TypeNode := do
  let start ← get
  let rest ← accept "..."
  let s ← get
  let mark := s.next
  let named := s.token.kind == .word
    && (mark.token.isMark ":" || (mark.token.isMark "?" && mark.next.token.isMark ":"))
  if named then
    discard take
    discard <| accept "?"
    discard <| statedType g
    return .other (start.textTo (← get))
  else
    let type ← g.type
    let optional ← accept "?"
    if rest || optional then return .other (start.textTo (← get)) else return type

def functionTypeHead (g : Grammar) : Parser Unit := do
  typeParameters? g
  parameters g
  expect "=>"

/-- Behind these tokens the text may be divided differently than into single tokens. -/
def Token.isOdd (token : Token) : Bool :=
  token.kind == .template || token.kind == .brokenString || token.isMark "/"

/-- Whether an arrow may follow the mark that closes so many brackets from here on. -/
def State.arrowMayFollow : Nat → Nat → State → Bool
  | 0, _, _ => false
  | n + 1, depth, s =>
    if s.token.kind == .finish then false
    else if s.token.isOdd then true
    else if ["(", "[", "\x7b"].any s.token.isMark then State.arrowMayFollow n (depth + 1) s.next
    else if [")", "]", "\x7d"].any s.token.isMark then
      if depth ≤ 1 then s.next.token.isMark "=>" else State.arrowMayFollow n (depth - 1) s.next
    else State.arrowMayFollow n depth s.next

def innerType (g : Grammar) : Parser TypeNode := do
  expect "("
  let inner ← enclosed g.type
  expect ")"
  return inner

def functionHeadOr (g : Grammar) : Parser (Option TypeNode) := do
  let start ← get
  if start.arrowMayFollow (start.here.length + 1) 0 then
    either (do functionTypeHead g; return none) (some <$> innerType g)
  else blaming (some <$> innerType g) (functionTypeHead g)

def parenthesizedType (g : Grammar) : Parser TypeNode := do
  let start ← get
  match ← functionHeadOr g with
  | some inner => return .parenthesized (start.textTo (← get)) inner
  | none =>
    resultType g
    return .other (start.textTo (← get))

def typeQuery (g : Grammar) : Parser Unit := do
  if (← atWord "import") && (← following).isMark "(" then
    discard take
    discard <| arguments g
  else discard anyWord
  discard <| many do
    if (← accept ".") || (← accept "?.") then
      if ← atKind .privateName then discard take else discard anyWord
      return some ()
    else return none
  if ← atMark "<" then discard <| typeArguments g

def wordType (g : Grammar) : Parser TypeNode := do
  let start ← get
  let second ← following
  let textHere : Parser String := return start.textTo (← get)
  match String.ofList start.token.text with
  | "true" => discard take; return .literal (← textHere) (.boolean true)
  | "false" => discard take; return .literal (← textHere) (.boolean false)
  | "null" | "undefined" | "const" => discard take; return .other (← textHere)
  | "typeof" =>
    discard take
    typeQuery g
    return .other (← textHere)
  | "import" =>
    if second.isMark "(" then
      typeQuery g
      return .other (← textHere)
    else stuck
  | "unique" =>
    discard take
    expectWord "symbol"
    let text ← textHere
    return .reference text text []
  | "any" | "boolean" | "never" | "number" | "object" | "string" | "symbol" | "this" | "unknown"
  | "void" =>
    discard take
    let text ← textHere
    return .reference text text []
  | _ =>
    qualifiedName
    let name ← textHere
    let args ← if ← atMark "<" then typeArguments g else pure []
    return .reference (← textHere) name args

def primaryType (g : Grammar) : Parser TypeNode := do
  let start ← get
  let textHere : Parser String := return start.textTo (← get)
  match start.token.kind with
  | .word => wordType g
  | .string =>
    let value := Escape.stringValue (String.ofList (← take).text)
    return .literal (← textHere) (.string value)
  | .brokenString => brokenString
  | .number =>
    let text := String.ofList (← take).text
    return .literal (← textHere) (.number text)
  | .template =>
    templateParts (discard g.type)
    return .other (← textHere)
  | .mark =>
    if ← atMark "\x7b" then
      let members ← typeMembers g
      return .object (← textHere) members
    else if ← atMark "[" then
      discard take
      let elements ← enclosed do
        if (← atMark "]") || ((← atMark ",") && (← following).isMark "]") then
          discard <| accept ","
          return []
        else commaList "]" (tupleElement g)
      expect "]"
      return .tuple (← textHere) elements
    else if (← atMark "-") && (← following).kind == .number then
      discard take
      let text := String.ofList (← take).text
      return .literal (← textHere) (.number ("-" ++ text))
    else if (← atMark "+") && (← following).kind == .number then
      discard take
      discard take
      return .other (← textHere)
    else if ← accept "*" then return .other (← textHere)
    else if ← atSignature then parenthesizedType g
    else stuck
  | _ => stuck

def typeSuffix? (g : Grammar) (start : State) (type : TypeNode) : Parser (Option TypeNode) := do
  if (← atMark "[") && !(← endsHere) then
    discard take
    if ← accept "]" then return some (.array (start.textTo (← get)) type)
    else if !(← current).startsType then missing "]"
    else
      discard <| enclosed g.type
      expect "]"
      return some (.other (start.textTo (← get)))
  else return none

def typeOperand (g : Grammar) : Parser TypeNode := do
  let start ← get
  if ← acceptWord "keyof" then
    discard g.typeOperand
    return .other (start.textTo (← get))
  else if (← accept "?") then
    discard g.typeOperand
    return .other (start.textTo (← get))
  else if ← acceptWord "readonly" then
    discard g.type
    return .other (start.textTo (← get))
  else if ← acceptWord "infer" then
    discard anyWord
    if (← atWord "extends") && !(← endsHere) then
      discard take
      discard g.typeOperand
    return .other (start.textTo (← get))
  else if (← atWord "new") || (← atWord "abstract") then
    discard <| acceptWord "abstract"
    expectWord "new"
    functionTypeHead g
    discard g.typeOperand
    return .other (start.textTo (← get))
  else
    let type ← primaryType g
    extend (typeSuffix? g start) type

/-- Operands with a mark between them. The mark may also stand in front of the first one and
may be repeated; the flag says whether it was seen. -/
def typeRow (mark : String) (p : Parser TypeNode) : Parser (List TypeNode × Bool) := do
  let marks : Parser (List Unit) := many do
    if ← accept mark then return some () else return none
  let leading ← marks
  let first ← p
  let more ← many do
    if (← marks).isEmpty then return none else return some (← p)
  return (first :: more, !leading.isEmpty || !more.isEmpty)

def intersectionType (g : Grammar) : Parser TypeNode := do
  let start ← get
  let (operands, marked) ← typeRow "&" (typeOperand g)
  match operands, marked with
  | [only], false => return only
  | _, _ => return .intersection (start.textTo (← get)) operands

def unionType (g : Grammar) : Parser TypeNode := do
  let start ← get
  let (operands, marked) ← typeRow "|" (intersectionType g)
  match operands, marked with
  | [only], false => return only
  | _, _ => return .union (start.textTo (← get)) operands

/-- Any type. A condition reaches as far to the right as it can. -/
def anyType (g : Grammar) : Parser TypeNode := do
  let start ← get
  let type ← unionType g
  if (← atWord "extends") && !(← endsHere) then
    discard take
    enclosed do
      discard <| unionType g
      expect "?"
      discard g.type
      expect ":"
    discard g.type
    return .other (start.textTo (← get))
  else return type

end DeclSchema.Syntax
