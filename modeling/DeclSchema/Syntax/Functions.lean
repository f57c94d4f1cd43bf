import DeclSchema.Syntax.Signature

/-! # Patterns, bodies and functions

What a function is made of besides its head. A statement that makes no sense is reported
with the shortest stretch of text after which a statement stands again.
-/
namespace DeclSchema.Syntax
open Text

def patternPart (g : Grammar) : Parser Unit := do
  discard <| accept "..."
  if (← atMark "\x7b") || (← atMark "[") then g.pattern
  else if !(← g.operand).assignable then stuck
  discard <| initializer? g

def patternEntry (g : Grammar) : Parser Unit := do
  if ← atMark "..." then patternPart g
  else
    let second ← following
    if (← atKind .word) && [",", "\x7d", "="].any second.isMark then
      discard take
      discard <| initializer? g
    else
      discard <| propertyName g
      expect ":"
      patternPart g

def bindingPattern (g : Grammar) : Parser Unit := do
  if ← accept "\x7b" then
    discard <| enclosed (slots "\x7d" (patternEntry g))
    expect "\x7d"
  else if ← accept "[" then
    discard <| enclosed (slots "]" (patternPart g))
    expect "]"
  else discard anyWord

/-- The first state from here on in which a statement, the end of a body or the end of the
source stands. -/
def State.resume (statement : Parser Unit) (scope : Scope) : Nat → State → State
  | 0, s => s
  | n + 1, s =>
    if s.token.kind == .finish || s.token.isMark "\x7d" || (statement scope s).isOk then s
    else State.resume statement scope n s.next

def State.skipped (statement : Parser Unit) (scope : Scope) (s : State) : List Char :=
  s.here.take ((State.resume statement scope s.here.length s.next).stop - s.offset)

def State.supply (s : State) (offset : Nat) (what : String) : State :=
  let width := offset - s.offset
  State.start s.offset s.found (s.here.take width ++ what.toList ++ s.here.drop width)

/-- Reads a statement. Something is missing in it only if that would complete it; otherwise
what has to be skipped is the fault. -/
def soundly (statement : Parser Unit) : Parser Unit := fun scope s =>
  match statement scope s with
  | .ok result => .ok result
  | .error (.missing offset what) =>
    if s.offset < offset && (statement scope (s.supply offset (supplement what))).isOk then
      .error (.missing offset what)
    else .error (.unexpected s.offset (s.skipped statement scope))
  | .error (.stuck _) => .error (.unexpected s.offset (s.skipped statement scope))
  | .error fault => .error fault
where
  /-- An example of what is missing. -/
  supplement (what : String) : String :=
    if what == "identifier" || what == "type_identifier" || what == "property_identifier" then
      " x"
    else what

def statements (g : Grammar) : Parser Unit := discard <| many do
  if ← atEnd then return none else return some (← soundly g.statement)

def block (g : Grammar) : Parser Unit := do
  expect "\x7b"
  enclosed (statements g)
  expect "\x7d"

def functionName? : Parser (Option String) := do
  discard <| accept "*"
  if ← atKind .word then return some (← anyWord) else return none

def functionValue (g : Grammar) : Parser Unit := do
  expectWord "function"
  discard functionName?
  signature g
  block g

def arrowHead (g : Grammar) : Parser Unit := do
  if ← atKind .word then discard take
  else
    typeParameters? g
    parameters g
    if (← read).arrowTypes then resultType? g
  expect "=>"

def arrowBody (g : Grammar) : Parser Unit := do
  if ← atMark "\x7b" then block g else discard g.value

end DeclSchema.Syntax
