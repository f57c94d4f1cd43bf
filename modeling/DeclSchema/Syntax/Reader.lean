import DeclSchema.Syntax.Fault
import DeclSchema.Syntax.Token
import DeclSchema.Syntax.Tree

/-! # Reading token by token

A reader walks over a source from token to token and keeps the declarations it has met.
The text of a construct is what lies between the token it began with and the end of the
last token taken. A semicolon may be left out at the end of the source, before a closing
brace and before a line feed, unless what follows goes on with the line.
-/
namespace DeclSchema.Syntax
open Text

structure State where
  offset : Nat
  here : List Char
  token : Token
  /-- Whether a line feed stands before the current token. -/
  newline : Bool
  stop : Nat
  /-- The declarations met so far, the last one first. -/
  found : List Item

def State.start (offset : Nat) (found : List Item) (text : List Char) : State :=
  let gap := readGap 0 false text
  ⟨offset + gap.width, gap.rest, (readToken gap.rest).1, gap.breaksLine, offset, found⟩

def State.past (s : State) (width : Nat) : State :=
  State.start (s.offset + width) s.found (s.here.drop width)

def State.next (s : State) : State := s.past s.token.text.length

/-- The text from this state's token to the end of the last token that `s` has taken. -/
def State.textTo (start s : State) : String :=
  String.ofList (trim (start.here.take (s.stop - start.offset)))

/-- How the construct at hand may end at a line feed. -/
inductive LineEnd
  /-- It may not: a bracket is open. -/
  | never
  /-- After a type or a name. -/
  | afterType
  /-- After a value, which a bracket on the next line continues. -/
  | afterValue
  /-- After the head of a function, which a brace on the next line continues. -/
  | afterHead
deriving Repr, DecidableEq

/-- What holds for a whole construct while it is read. -/
structure Scope where
  lineEnd : LineEnd := .never
  /-- Whether `in` is an operator here. -/
  allowIn : Bool := true
  /-- Whether an arrow function may state the type of its result here. -/
  arrowTypes : Bool := true

abbrev Parser := ReaderT Scope (StateT State (Except Fault))

def startsWithWord (word text : List Char) : Bool :=
  match afterHead? word text with
  | none => false
  | some [] => true
  | some (c :: _) => isDigit c || c == '_' || c == '$' || !isNamePart c

def beginsAnew (lineEnd : LineEnd) (text : List Char) : Bool :=
  match text with
  | [] => true
  | c :: rest =>
    if "\x60,.;*%><=?^|&/:".toList.contains c then false
    else if c == '{' then lineEnd != .afterHead
    else if c == '(' || c == '[' then lineEnd != .afterValue
    else if c == '+' || c == '-' then rest.head? == some c
    else if c == '!' then rest.head? != some '='
    else !(startsWithWord "in".toList text || startsWithWord "instanceof".toList text)

/-- Whether the construct may end before the current token without a mark. A brace that
closes an annotated pattern does not end what stands before it. -/
def State.endsBefore (s : State) (lineEnd : LineEnd) : Bool :=
  match s.here with
  | [] => true
  | c :: rest =>
    if c == '}' && !s.newline && (rest.dropWhile isBlank).head? == some ':' then
      lineEnd == .afterValue
    else if c == '}' then true
    else s.newline && beginsAnew lineEnd s.here

def endsHere : Parser Bool := do
  let scope ← read
  let s ← get
  return scope.lineEnd != .never && s.endsBefore scope.lineEnd

def current : Parser Token := return (← get).token

def following : Parser Token := return (← get).next.token

def takeChars (width : Nat) : Parser Unit := modify (·.past width)

def Token.isMark (token : Token) (mark : String) : Bool :=
  token.kind == .mark && token.text == mark.toList

def Token.isWord (token : Token) (word : String) : Bool :=
  token.kind == .word && token.text == word.toList

def Token.isOneOf (token : Token) (words : List String) : Bool :=
  token.kind == .word && words.any fun word => token.text == word.toList

def atMark (mark : String) : Parser Bool := return (← current).isMark mark

def atWord (word : String) : Parser Bool := return (← current).isWord word

def atKind (kind : TokenKind) : Parser Bool := return (← current).kind == kind

def atEnd : Parser Bool := return (← atMark "\x7d") || (← atKind .finish)

def missing {α : Type} (what : String) : Parser α := do
  let s ← get
  if s.token.kind == .finish then throw (.unfinished s.stop what)
  else throw (.missing s.stop what)

def unexpected {α : Type} : Parser α := do
  let s ← get
  throw (.unexpected s.offset s.token.text)

def stuck {α : Type} : Parser α := do
  let s ← get
  if s.token.kind == .finish then throw (.unfinished s.offset "") else throw (.stuck s.offset)

def exhausted {α : Type} : Parser α := do throw (.exhausted (← get).offset)

def Token.isWhole (token : Token) : Bool := token.kind != .finish && token.kind != .brokenString

def take : Parser Token := do
  let s ← get
  if s.token.isWhole then
    set s.next
    return s.token
  else stuck

def accept (mark : String) : Parser Bool := do
  if ← atMark mark then
    discard take
    return true
  else return false

def acceptWord (word : String) : Parser Bool := do
  if ← atWord word then
    discard take
    return true
  else return false

def expect (mark : String) : Parser Unit := do
  if ← accept mark then return else missing mark

def expectWord (word : String) : Parser Unit := do
  if ← acceptWord word then return else stuck

def anyWord : Parser String := do
  if ← atKind .word then return String.ofList (← take).text else stuck

def anyString : Parser Unit := do
  if ← atKind .string then discard take else stuck

def inScope {α : Type} (change : Scope → Scope) (p : Parser α) : Parser α :=
  fun scope s => p (change scope) s

/-- Reads what stands between brackets, where no line feed ends anything. -/
def enclosed {α : Type} (p : Parser α) : Parser α := inScope (fun _ => {}) p

def either {α : Type} (p q : Parser α) : Parser α := fun scope s =>
  match p scope s with
  | .ok result => .ok result
  | .error first =>
    if first.isExhausted then .error first
    else
      match q scope s with
      | .ok result => .ok result
      | .error second => .error (first.further second)

/-- Reads in one way. Where that fails, the fault of another way counts, too. -/
def blaming {α β : Type} (p : Parser α) (q : Parser β) : Parser α := fun scope s =>
  match p scope s with
  | .ok result => .ok result
  | .error fault =>
    match q scope s with
    | .ok _ => .error fault
    | .error other => .error (other.further fault)

def optionally {α : Type} (p : Parser α) : Parser (Option α) :=
  either (some <$> p) (pure none)

def manyUpTo {α : Type} (p : Parser (Option α)) : Nat → Parser (List α)
  | 0 => exhausted
  | n + 1 => do
    match ← p with
    | some a => return a :: (← manyUpTo p n)
    | none => return []

/-- Reads until there is no more; each time something is taken. -/
def many {α : Type} (p : Parser (Option α)) : Parser (List α) := do
  manyUpTo p ((← get).here.length + 1)

def extendUpTo {α : Type} (p : α → Parser (Option α)) (a : α) : Nat → Parser α
  | 0 => exhausted
  | n + 1 => do
    match ← p a with
    | some b => extendUpTo p b n
    | none => return a

def extend {α : Type} (p : α → Parser (Option α)) (a : α) : Parser α := do
  extendUpTo p a ((← get).here.length + 1)

/-- Reads items with commas between them, and behind the last one if the closing mark
follows. -/
def commaList {α : Type} (close : String) (p : Parser α) : Parser (List α) := do
  let first ← p
  let more ← many do
    if ← accept "," then
      if ← atMark close then return none else return some (← p)
    else return none
  return first :: more

def slots {α : Type} (close : String) (p : Parser α) : Parser (List α) := many do
  discard <| many (do if ← accept "," then return some () else return none)
  if ← atMark close then return none
  if ← atKind .finish then missing close
  let item ← p
  if (← atMark close) || (← accept ",") then return some item
  else missing (if ← atKind .finish then close else ",")

def emit (item : Item) : Parser Unit := modify fun s => { s with found := item :: s.found }

def emitAll (items : List Item) : Parser Unit := items.forM emit

def gather {α : Type} (p : Parser α) : Parser (α × List Item) := fun scope s =>
  match p scope { s with found := [] } with
  | .ok (a, after) => .ok ((a, after.found.reverse), { after with found := s.found })
  | .error fault => .error fault

def unseen {α : Type} (p : Parser α) : Parser α := Prod.fst <$> gather p

def terminator (lineEnd : LineEnd) : Parser Unit := do
  if ← accept ";" then return
  else if (← get).endsBefore lineEnd then return
  else stuck

end DeclSchema.Syntax
