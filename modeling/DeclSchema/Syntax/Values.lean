import DeclSchema.Syntax.Classes

/-! # Values

Of a value only three things matter: the keys of an object literal, the content of a plain
literal, and whether it can be assigned to. Operands and operators are therefore read as one
row, without regard to which operator binds closer. The keys survive parentheses, type
assertions and `Object.freeze`; a literal has to stand alone.
-/
namespace DeclSchema.Syntax
open Text

def regexWidth? (inClass : Bool) : List Char → Option Nat
  | [] => none
  | '\\' :: c :: rest => if c == '\n' then none else (regexWidth? inClass rest).map (· + 2)
  | c :: rest =>
    if c == '\n' then none
    else if c == '/' && !inClass then some 1
    else (regexWidth? (c == '[' || (inClass && c != ']')) rest).map (· + 1)

def regexAt? : List Char → Option Nat
  | '/' :: rest =>
    (regexWidth? false rest).bind fun width =>
      if width == 1 then none
      else some (1 + width + ((rest.drop width).takeWhile isLower).length)
  | _ => none

def objectEntry (g : Grammar) : Parser (Option String) := do
  if ← accept "..." then
    discard g.value
    return none
  else
    let second ← following
    if (← atKind .word) && [",", "\x7d"].any second.isMark then return some (← anyWord)
    else
      let words ← modifiers [methodOrder]
      let key ← propertyName g
      if (← atSignature) || (← atMark "?") then
        discard <| accept "?"
        signature g
        block g
      else if !words.isEmpty then unexpected
      else
        expect ":"
        discard g.value
      return some key

def objectLiteral (g : Grammar) : Parser Operand := do
  expect "\x7b"
  let keys ← enclosed (slots "\x7d" (objectEntry g))
  expect "\x7d"
  return { keys? := some (keys.filterMap id), assignable := true }

def arrayLiteral (g : Grammar) : Parser Operand := do
  expect "["
  discard <| enclosed <| slots "]" do
    discard <| accept "..."
    discard g.value
  expect "]"
  return { assignable := true }

def assignedPattern (g : Grammar) : Parser Operand := do
  g.pattern
  if ← atMark "=" then return { assignable := true } else stuck

/-- A pattern that is assigned to, or else a literal that begins in the same way. -/
def patternOr (g : Grammar) (literal : Parser Operand) : Parser Operand := do
  match ← optionally (assignedPattern g) with
  | some pattern => return pattern
  | none => literal

/-- An arrow function from its head on; a head that does not fit leaves nothing taken. -/
def arrow? (g : Grammar) : Parser Bool := do
  match ← optionally (arrowHead g) with
  | some () =>
    arrowBody g
    return true
  | none => return false

def parenthesizedValue (g : Grammar) : Parser Operand := do
  expect "("
  let inner ← enclosed do
    let inner ← g.values
    discard <| statedType? g
    return inner
  expect ")"
  return { inner with literal? := none, applied? := none }

def Token.startsOperand (token : Token) : Bool :=
  match token.kind with
  | .word => !token.isOneOf
      ["in", "of", "instanceof", "as", "satisfies", "extends", "implements"]
  | .privateName | .number | .string | .brokenString | .template => true
  | .mark =>
    ["(", "[", "\x7b", "+", "-", "!", "~", "++", "--", "<", "/", "@"].any token.isMark
  | _ => false

def wordValue (g : Grammar) : Parser Operand := do
  let second := (← get).next
  let scope ← read
  let goesOn := !(scope.lineEnd != .never && second.endsBefore scope.lineEnd)
  if second.token.isMark "=>" then
    arrowHead g
    arrowBody g
    return {}
  match String.ofList (← current).text with
  | "typeof" | "void" | "delete" | "await" =>
    discard take
    discard g.operand
    return {}
  | "yield" =>
    discard take
    if ← accept "*" then discard g.value
    else if (← current).startsOperand && !(← endsHere) then discard g.value
    return {}
  | "function" =>
    functionValue g
    return {}
  | "class" =>
    classFrom g []
    return {}
  | "new" =>
    discard take
    if (← atMark ".") && (← following).isWord "target" then
      discard take
      discard take
      return {}
    else if goesOn && (← current).startsOperand then
      return { ← g.operand with keys? := none, literal? := none, applied? := none }
    else return { assignable := true }
  | "async" =>
    if second.token.isWord "function" && goesOn then
      discard take
      functionValue g
      return {}
    else if second.token.kind == .word && second.next.token.isMark "=>" && goesOn then
      discard take
      arrowHead g
      arrowBody g
      return {}
    else if second.token.isMark "(" || second.token.isMark "<" then
      let arrow ← optionally (do discard take; arrowHead g)
      if arrow.isSome then
        arrowBody g
        return {}
      else
        discard take
        return { assignable := true }
    else
      discard take
      return { assignable := true }
  | "import" =>
    if second.token.isMark "(" || second.token.isMark "." then
      discard take
      return {}
    else stuck
  | "true" =>
    discard take
    return { literal? := some (.boolean true) }
  | "false" =>
    discard take
    return { literal? := some (.boolean false) }
  | _ =>
    discard take
    return { assignable := true }

def primaryValue (g : Grammar) : Parser Operand := do
  let start ← get
  match start.token.kind with
  | .word => wordValue g
  | .privateName =>
    discard take
    return {}
  | .number =>
    return { literal? := some (.number (String.ofList (← take).text)) }
  | .string =>
    return { literal? := some (.string (Escape.stringValue (String.ofList (← take).text))) }
  | .brokenString => brokenString
  | .template =>
    templateParts (discard g.values)
    return {}
  | .mark =>
    if ← atMark "(" then
      if ← arrow? g then return {} else parenthesizedValue g
    else if ← atMark "<" then
      if ← arrow? g then return {}
      else
        discard <| typeArguments g
        discard g.operand
        return {}
    else if ← atMark "[" then patternOr g (arrayLiteral g)
    else if ← atMark "\x7b" then patternOr g (objectLiteral g)
    else if ← atMark "@" then
      decorators g
      classFrom g []
      return {}
    else
      match regexAt? start.here with
      | some width =>
        takeChars width
        return {}
      | none => if ← atMark "/" then unclosed "/" else missing "identifier"
  | _ => missing "identifier"

/-- Type arguments of a call. What looks like them may also be comparisons. -/
def callTypeArguments (g : Grammar) : Parser Unit := do
  discard <| typeArguments g
  let s ← get
  if s.token.isMark "(" || s.token.kind == .template || s.token.isMark "\x7b" || s.newline
      || !s.token.startsOperand then
    return
  else stuck

/-- Whether exactly `Object.freeze` was read since the given state. -/
def isFreeze (start s : State) : Bool :=
  s.stop - start.offset == 13 && start.textTo s == "Object.freeze"

def callLink (g : Grammar) (frozen : Bool) : Parser Operand := do
  let first ← arguments g
  return { keys? := if frozen then first.bind (·.keys?) else none }

def optionalLink (g : Grammar) (frozen : Bool) : Parser Operand := do
  if ← accept "[" then
    discard <| enclosed g.values
    expect "]"
    return { assignable := true }
  else
    if ← atMark "<" then discard <| typeArguments g
    if ← atMark "(" then callLink g frozen
    else
      if ← atKind .privateName then discard take else discard anyWord
      return { assignable := true }

/-- A call with type arguments, or the type arguments at the end of a value. -/
def appliedLink? (g : Grammar) (start : State) (frozen : Bool) : Parser (Option Operand) := do
  let applied ← get
  match ← optionally (callTypeArguments g) with
  | some () =>
    if ← atMark "(" then return some (← callLink g frozen)
    else return some { applied? := some (start.textTo applied) }
  | none => return none

def link? (g : Grammar) (start : State) (value : Operand) : Parser (Option Operand) := do
  if ← endsHere then return none
  let frozen := isFreeze start (← get)
  if ← accept "." then
    if (← atKind .privateName) || (← atKind .word) then discard take
    else missing "property_identifier"
    return some { assignable := true }
  else if ← accept "?." then return some (← optionalLink g frozen)
  else if ← accept "[" then
    discard <| enclosed g.values
    expect "]"
    return some { assignable := true }
  else if ← atMark "(" then return some (← callLink g frozen)
  else if ← atKind .template then
    templateParts (discard g.values)
    return some {}
  else if ← accept "!" then return some { value with literal? := none, applied? := none }
  else if ← atMark "<" then appliedLink? g start frozen
  else return none

/-- A minus sign before a plain number belongs to the literal. -/
def negated (value : Operand) : Operand :=
  match value.literal? with
  | some (.number text) =>
    if text.startsWith "-" then {} else { literal? := some (.number ("-" ++ text)) }
  | _ => {}

def operand (g : Grammar) : Parser Operand := do
  let start ← get
  if ← accept "-" then return negated (← g.operand)
  else if ["+", "!", "~", "++", "--"].any start.token.isMark then
    discard take
    discard g.operand
    return {}
  else
    let first ← primaryValue g
    extend (link? g start) first

inductive Operator
  | binary
  /-- Assigns to what stands before it. -/
  | assignment
deriving DecidableEq

/-- The operators that are marks, those that others begin with after these. -/
def operators : List (List Char × Option Operator) :=
  let marks (kind : Option Operator) (texts : List String) :=
    texts.map fun text => (text.toList, kind)
  marks (some .assignment) [">>>="]
    ++ marks (some .binary) ["===", "!==", ">>>"]
    ++ marks (some .assignment) ["**=", "??=", "<<=", ">>=", "&&=", "||="]
    ++ marks none ["=>", "++", "--"]
    ++ marks (some .binary) ["==", "!=", "**", "??", "<<", ">>", "&&", "||", "<=", ">="]
    ++ marks (some .assignment) ["+=", "-=", "*=", "/=", "%=", "^=", "&=", "|="]
    ++ marks (some .binary) ["<", ">", "&", "|", "^", "+", "-", "*", "/", "%"]
    ++ marks (some .assignment) ["="]

def operatorAt? (text : List Char) : Option (Operator × Nat) :=
  (operators.find? fun entry => entry.1.isPrefixOf text).bind fun entry =>
    entry.2.map fun kind => (kind, entry.1.length)

/-- The second and third operand of a condition. An arrow function in the second one may
only state the type of its result if a third one still follows. -/
def conditionBranches (g : Grammar) : Parser Unit := do
  let branch : Parser Unit := do
    discard g.value
    expect ":"
  let plain := inScope (fun _ => { arrowTypes := false }) branch
  if (← read).arrowTypes then either (enclosed branch) plain else plain
  discard g.value

def atCondition : Parser Bool := do
  let second ← following
  return (← atMark "?") && !([":", ")", ","].any second.isMark)

def rowStep? (g : Grammar) (value : Operand) : Parser (Option Operand) := do
  if ← endsHere then return none
  let s ← get
  let scope ← read
  if s.token.isWord "as" || s.token.isWord "satisfies" then
    discard take
    discard g.type
    return some { keys? := value.keys? }
  else if s.token.isWord "instanceof" || (s.token.isWord "in" && scope.allowIn) then
    discard take
    return some { assignable := (← g.operand).assignable }
  else if s.token.isMark "++" || s.token.isMark "--" then
    if value.assignable then
      discard take
      return some {}
    else return none
  else if ← atCondition then
    discard take
    conditionBranches g
    return some {}
  else if s.token.kind != .mark then return none
  else
    match operatorAt? s.here with
    | some (kind, width) =>
      if kind == .assignment && !value.assignable then return none
      takeChars width
      return some { assignable := (← operand g).assignable }
    | none => return none

def anyValue (g : Grammar) : Parser Operand := do
  extend (rowStep? g) (← operand g)

def anyValues (g : Grammar) : Parser Operand := do
  let first ← g.value
  let more ← many do
    if ← accept "," then return some (← g.value) else return none
  return if more.isEmpty then first else {}

end DeclSchema.Syntax
