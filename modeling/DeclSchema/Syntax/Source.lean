import DeclSchema.Syntax.Statements

/-! # Sources

`parseSource` reads a whole source. The grammar is built in levels: the constructs inside
of a construct are read one level further down, and a source is not deeper than it is long.
-/
namespace DeclSchema.Syntax
open Text

/-- The grammar whose inner constructs are read by the given one. -/
def Grammar.around (g : Grammar) : Grammar :=
  { type := anyType g
    typeOperand := Syntax.typeOperand g
    value := anyValue g
    values := anyValues g
    operand := Syntax.operand g
    pattern := bindingPattern g
    statement := anyStatement g }

def Grammar.ofDepth : Nat → Grammar
  | 0 => Grammar.failing
  | depth + 1 => (Grammar.ofDepth depth).around

/-- Reads a statement of the source itself. A source that ends too early lacks something
only if this completes a declaration of more than one token; otherwise the whole statement
is the fault. -/
def outerStatement (g : Grammar) : Parser Unit := fun scope s =>
  match soundly g.statement scope s with
  | .error (.unfinished offset what) =>
    let text := s.here.take (offset - s.offset)
    let completed := State.start s.offset s.found (text ++ what.toList ++ " x".toList)
    match g.statement scope completed with
    | .ok (_, after) =>
      if after.here == ['x'] && s.next.token.kind != .finish then
        .error (.missing offset what)
      else .error (.unexpected s.offset s.here)
    | .error _ => .error (.unexpected s.offset s.here)
  | result => result

def wholeSource (g : Grammar) : Parser Unit := discard <| many do
  if ← atKind .finish then return none else return some (← outerStatement g)

def interpreterLine (source : List Char) : List Char :=
  match source with
  | '#' :: '!' :: _ => source.takeWhile (· != '\n')
  | _ => []

/-- A depth that no construct of a source of this length exceeds. -/
def depthFor (length : Nat) : Nat := 2 * length + 8

/-- Where a source begins: behind the line of the interpreter, on a new line. -/
def State.first (source : List Char) : State :=
  let skipped := (interpreterLine source).length
  { State.start skipped [] (source.drop skipped) with newline := true }

def parse (source : List Char) : Except Fault (List Item) :=
  match wholeSource (Grammar.ofDepth (depthFor source.length)) {} (State.first source) with
  | .ok (_, s) => .ok s.found.reverse
  | .error fault => .error fault

def parseSource (source : String) : Except SyntaxError (List Item) :=
  (parse source.toList).mapError (Fault.toError source.toList)

end DeclSchema.Syntax
