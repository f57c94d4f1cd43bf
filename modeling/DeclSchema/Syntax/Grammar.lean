import DeclSchema.Syntax.Reader
import DeclSchema.Text.Escape

/-! # The parts that constructs share

Types, values, patterns and statements contain each other. `Grammar` bundles a reader for
each of them; the readers of larger constructs take such a bundle for what lies inside.
-/
namespace DeclSchema.Syntax
open Text

/-- What a value is, as far as declarations care. -/
structure Operand where
  keys? : Option (List String) := none
  literal? : Option Literal := none
  assignable : Bool := false
  /-- The text of what type arguments at the end of the value are given to. -/
  applied? : Option String := none

/-- Readers of the constructs that may occur inside of others. -/
structure Grammar where
  type : Parser TypeNode
  /-- A type without a union, an intersection or a condition at its top. -/
  typeOperand : Parser TypeNode
  value : Parser Operand
  values : Parser Operand
  /-- A value without operators between operands at its top. -/
  operand : Parser Operand
  /-- What a declaration binds: a name, or the parts of an object or an array. -/
  pattern : Parser Unit
  statement : Parser Unit

def Grammar.failing : Grammar := ⟨exhausted, exhausted, exhausted, exhausted, exhausted, exhausted, exhausted⟩

def unclosed {α : Type} (close : String) : Parser α := do
  let s ← get
  let line := s.here.takeWhile (!isLineEnd ·)
  let offset := s.offset + line.length
  if line.length == s.here.length then throw (.unfinished offset "")
  else throw (.missing offset close)

def brokenString {α : Type} : Parser α := do
  let s ← get
  let width := s.token.text.length
  if (s.here.drop width).head? == some '\\' then
    throw (.unexpected (s.offset + width) ['\\'])
  else unclosed (String.ofList (s.token.text.take 1))

/-- What stands here may not stand here. At the end of the source the closing mark is missing. -/
def misplaced {α : Type} (close : String) : Parser α := do
  if ← atKind .finish then missing close else unexpected

def Token.startsName (token : Token) : Bool :=
  token.kind == .word || token.kind == .privateName || token.kind == .string
    || token.kind == .number || token.isMark "["

def propertyName (g : Grammar) : Parser String := do
  let start ← get
  match start.token.kind with
  | .word | .privateName | .number => return String.ofList (← take).text
  | .string => return Escape.stringValue (String.ofList (← take).text)
  | _ =>
    if ← accept "[" then
      discard <| enclosed g.value
      expect "]"
      return start.textTo (← get)
    else stuck

/-- The order of modifiers: groups of words, of which each may give one. -/
abbrev ModifierOrder := List (List String)

def ModifierOrder.admits : ModifierOrder → List String → Bool
  | _, [] => true
  | [], _ :: _ => false
  | group :: groups, word :: words =>
    if group.contains word then admits groups words else admits groups (word :: words)

def accessWords : List String := ["public", "private", "protected"]

def methodOrder : ModifierOrder :=
  [accessWords, ["static"], ["override"], ["readonly"], ["async"], ["get", "set", "*"]]

def firmModifiers : List String := ["abstract", "accessor"]

/-- Other words count as modifiers only if the name that they modify follows them. -/
def modifies : Parser Bool := do
  let s ← get
  let scope ← read
  let after := s.next
  return s.token.isOneOf firmModifiers
    || ((after.token.startsName || after.token.isMark "*")
      && !(scope.lineEnd != .never && after.endsBefore scope.lineEnd))

/-- Takes the modifiers in front of a name, as long as they follow one of the orders. The
mark of a generator counts as one of them. -/
def modifiers (orders : List ModifierOrder) : Parser (List String) := do
  let fits (words : List String) : Bool := orders.any (·.admits words)
  let words ← extend (fun words => do
    let s ← get
    let longer := words ++ [String.ofList s.token.text]
    if s.token.kind == .word && fits longer && (← modifies) then
      discard take
      return some longer
    else return none) []
  if fits (words ++ ["*"]) && (← accept "*") then return words ++ ["*"] else return words

def Token.startsType (token : Token) : Bool :=
  match token.kind with
  | .word | .string | .brokenString | .number | .template => true
  | .mark => ["(", "[", "\x7b", "<", "-", "+", "|", "&", "?", "*"].any token.isMark
  | _ => false

def State.passType : Nat → State → State
  | 0, s => s
  | n + 1, s =>
    if s.token.kind == .finish || [";", ",", ")", "]", "\x7d", "="].any s.token.isMark then s
    else State.passType n s.next

/-- No type stands after the colon with which the given state begins. -/
def untyped {α : Type} (colon : State) : Parser α := do
  let s ← get
  if s.token.kind == .finish then stuck
  else
    let after := State.passType s.here.length s
    throw (.unexpected colon.offset (colon.here.take (after.stop - colon.offset)))

/-- The type after a colon. Without a type the fault begins with the colon. -/
def statedType (g : Grammar) : Parser TypeNode := do
  let colon ← get
  expect ":"
  if (← current).startsType then g.type else untyped colon

def statedType? (g : Grammar) : Parser (Option TypeNode) := do
  if ← atMark ":" then return some (← statedType g) else return none

def initializer? (g : Grammar) : Parser (Option Operand) := do
  if ← accept "=" then return some (← g.value) else return none

def typeArguments (g : Grammar) : Parser (List TypeNode) := do
  expect "<"
  let types ← enclosed (commaList ">" g.type)
  expect ">"
  return types

def arguments (g : Grammar) : Parser (Option Operand) := do
  expect "("
  let values ← enclosed <| slots ")" do
    if ← accept "..." then
      discard g.value
      return {}
    else g.value
  expect ")"
  return values.head?

def decorator (g : Grammar) : Parser Unit := do
  expect "@"
  if ← accept "(" then
    discard <| enclosed g.values
    expect ")"
  else
    discard anyWord
    discard <| many do
      if ← accept "." then
        if ← atKind .privateName then discard take else discard anyWord
        return some ()
      else return none
    if ← atMark "<" then discard <| typeArguments g
    if ← atMark "(" then discard <| arguments g

def decorators (g : Grammar) : Parser Unit := discard <| many do
  if ← atMark "@" then
    decorator g
    return some ()
  else return none

end DeclSchema.Syntax
