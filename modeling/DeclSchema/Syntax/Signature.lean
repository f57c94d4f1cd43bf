import DeclSchema.Syntax.Grammar

/-! # Heads of functions

Type parameters, parameters and the type of the result, as functions, methods and function
types have them.
-/
namespace DeclSchema.Syntax
open Text

def typeParameter (g : Grammar) : Parser Unit := do
  let second ← following
  if (← atWord "const") && second.kind == .word && !second.isWord "extends" then discard take
  discard anyWord
  if (← acceptWord "extends") || (← accept ":") then discard g.type
  if ← accept "=" then discard g.type

def typeParameters? (g : Grammar) : Parser Unit := do
  if ← accept "<" then
    discard <| enclosed (commaList ">" (typeParameter g))
    expect ">"

def parameterModifiers : List String := ["public", "private", "protected", "override", "readonly"]

def parameter (g : Grammar) : Parser Unit := do
  decorators g
  discard <| many do
    let second ← following
    if (← current).isOneOf parameterModifiers
        && (second.kind == .word || ["\x7b", "[", "..."].any second.isMark) then
      discard take
      return some ()
    else return none
  discard <| accept "..."
  g.pattern
  discard <| accept "?"
  discard <| statedType? g
  discard <| initializer? g

def parameters (g : Grammar) : Parser Unit := do
  expect "("
  if ← accept ")" then return
  discard <| enclosed (commaList ")" (parameter g))
  expect ")"

/-- The type of a result. It may also state what holds of an argument. -/
def resultType (g : Grammar) : Parser Unit := do
  let scope ← read
  let second := (← get).next
  let goesOn := second.token.kind == .word
    && !(scope.lineEnd != .never && second.endsBefore scope.lineEnd)
  if (← atWord "asserts") && goesOn && !second.token.isWord "is" then
    discard take
    discard take
    if (← atWord "is") && !(← endsHere) then
      discard take
      discard g.type
  else if (← atKind .word) && goesOn && second.token.isWord "is" then
    discard take
    discard take
    discard g.type
  else discard g.type

def resultType? (g : Grammar) : Parser Unit := do
  let colon ← get
  if ← accept ":" then
    if (← current).startsType then resultType g else untyped colon

def signature (g : Grammar) : Parser Unit := do
  typeParameters? g
  parameters g
  resultType? g

def atSignature : Parser Bool := return (← atMark "(") || (← atMark "<")

end DeclSchema.Syntax
