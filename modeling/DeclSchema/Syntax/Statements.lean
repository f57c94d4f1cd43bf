import DeclSchema.Syntax.Modules

/-! # Statements

A word begins the statement it names only where it cannot be a name; a word that may be a
name and ends its line is one.
-/
namespace DeclSchema.Syntax
open Text

def valueStatement (g : Grammar) : Parser Unit := do
  discard <| inScope (fun _ => { lineEnd := .afterValue }) (anyValues g)
  terminator .afterValue

def parenthesized (g : Grammar) : Parser Unit := do
  expect "("
  discard <| enclosed g.values
  expect ")"

def eachHead (g : Grammar) : Parser Unit := do
  if (← current).isOneOf ["const", "let", "var"] then
    discard take
    g.pattern
    discard <| inScope (fun scope => { scope with allowIn := false }) (initializer? g)
  else if (← atMark "\x7b") || (← atMark "[") then g.pattern
  else discard g.operand
  if !(← acceptWord "of") then expectWord "in"

def countHead (g : Grammar) : Parser Unit :=
  inScope (fun scope => { scope with allowIn := false }) do
    if (← current).isOneOf ["const", "let", "var"] then
      discard take
      discard <| declarators g
    else if !(← atMark ";") then discard <| anyValues g
    expect ";"

def loopHead (g : Grammar) : Parser Unit := enclosed do
  match ← optionally (eachHead g) with
  | some () => discard g.values
  | none =>
    countHead g
    if !(← atMark ";") then discard g.values
    expect ";"
    if !(← atMark ")") then discard g.values

def forStatement (g : Grammar) : Parser Unit := do
  expectWord "for"
  discard <| acceptWord "await"
  expect "("
  loopHead g
  expect ")"
  g.statement

def ifStatement (g : Grammar) : Parser Unit := do
  expectWord "if"
  parenthesized g
  g.statement
  if ← acceptWord "else" then g.statement

def switchCase (g : Grammar) : Parser Unit := do
  if ← acceptWord "case" then discard <| enclosed g.values else expectWord "default"
  expect ":"
  discard <| many do
    if (← atEnd) || (← atWord "case")
        || ((← atWord "default") && (← following).isMark ":") then
      return none
    else return some (← soundly g.statement)

def switchStatement (g : Grammar) : Parser Unit := do
  expectWord "switch"
  parenthesized g
  expect "\x7b"
  discard <| many do
    if ← atEnd then return none else return some (← switchCase g)
  expect "\x7d"

def tryStatement (g : Grammar) : Parser Unit := do
  expectWord "try"
  block g
  if ← acceptWord "catch" then
    if ← accept "(" then
      enclosed do
        g.pattern
        discard <| statedType? g
      expect ")"
    block g
  if ← acceptWord "finally" then block g

def doStatement (g : Grammar) : Parser Unit := do
  expectWord "do"
  g.statement
  expectWord "while"
  parenthesized g
  discard <| accept ";"

def jumpStatement (p : Parser Unit) : Parser Unit := do
  discard take
  if (← atMark ";") || (← get).endsBefore .afterType then terminator .afterType
  else p

/-- Words that begin a statement or a value and are never labels. -/
def firmWords : List String :=
  ["abstract", "await", "break", "class", "const", "continue", "debugger", "delete", "do", "enum",
    "false", "for", "function", "if", "import", "interface", "null", "return", "super", "switch",
    "this", "throw", "true", "try", "typeof", "undefined", "var", "void", "while", "with", "yield"]

/-- Decorators and the class that they belong to. What stands in decorators before the word
`export` is declared outside of the class. -/
def decoratedStatement (g : Grammar) : Parser Unit := do
  let (_, decoration) ← gather (decorators g)
  if ← acceptWord "export" then
    emitAll decoration
    exportFrom g
  else classDeclaration g decoration

/-- A statement that begins with a word, unless the word is the name of something. -/
def wordStatement? (g : Grammar) : Parser Bool := do
  let s ← get
  let second := s.next
  let commits (p : Parser Unit) : Parser Bool := do
    p
    return true
  match String.ofList s.token.text with
  | "if" => commits (ifStatement g)
  | "for" => commits (forStatement g)
  | "while" | "with" =>
    commits do
      discard take
      parenthesized g
      g.statement
  | "do" => commits (doStatement g)
  | "switch" => commits (switchStatement g)
  | "try" => commits (tryStatement g)
  | "return" => commits (jumpStatement (valueStatement g))
  | "throw" =>
    commits do
      discard take
      valueStatement g
  | "break" | "continue" =>
    commits <| jumpStatement do
      discard anyWord
      terminator .afterType
  | "debugger" =>
    commits do
      discard take
      terminator .afterType
  | "import" =>
    if second.token.isMark "(" || second.token.isMark "." then return false
    else commits (importStatement g)
  | "export" =>
    if second.token.isMark ";" || second.endsBefore .afterValue then return false
    else
      commits do
        discard take
        exportFrom g
  | "declare" =>
    if ← atAmbient then
      commits do
        discard take
        ambientFrom g
    else return false
  | _ => declaration? g

/-- Marks that make the rest of a line a comment where a statement may begin. -/
def commentMarks : List (List Char) := ["<!--".toList, "-->".toList]

def anyStatement (g : Grammar) : Parser Unit := do
  let s ← get
  if ← accept ";" then return
  else if commentMarks.any (·.isPrefixOf s.here) then
    takeChars (s.here.takeWhile (!isLineEnd ·)).length
  else if ← atMark "\x7b" then block g
  else if ← atMark "@" then decoratedStatement g
  else if !(← atKind .word) then valueStatement g
  else if (← following).isMark ":" && !(← current).isOneOf firmWords then
    discard take
    discard take
    g.statement
  else if ← wordStatement? g then return
  else valueStatement g

end DeclSchema.Syntax
