import DeclSchema.Text.Escape

/-! # Tokens

A source is read one token at a time. Between tokens stand gaps: blank space and comments.
What a token is does not depend on where it stands, with two exceptions that the grammar
settles itself: a slash may begin a regular expression, and neighbouring angle brackets,
bars and ampersands may form one operator, so these are read one by one.
-/
namespace DeclSchema.Syntax
open Text

inductive TokenKind
  | word
  /-- A name after a number sign. -/
  | privateName
  | number
  | string
  /-- A string literal without its end, or with an escape that does not exist. -/
  | brokenString
  | template
  | mark
  /-- A character that begins no token. -/
  | stray
  | finish
deriving Repr, DecidableEq

structure Token where
  kind : TokenKind
  text : List Char
deriving Repr, DecidableEq

def isGapChar (c : Char) : Bool :=
  let n := c.toNat
  (9 ≤ n && n ≤ 13) || isSpaceSeparator c || n == 0xFEFF || n == 0x2028 || n == 0x2029
    || n == 0x2060 || n == 0x200B

def nameStops : List Char := ":;\x60\"'@#.,|^&<=>+-*/\\%?!~()[]\x7b\x7d".toList

def isNamePart (c : Char) : Bool := 0x20 ≤ c.toNat && !isGapChar c && !nameStops.contains c

def isNameStart (c : Char) : Bool := isNamePart c && !isDigit c

def isLineEnd (c : Char) : Bool :=
  c == '\n' || c == '\r' || c.toNat == 0x2028 || c.toNat == 0x2029

def afterComment? : Nat → List Char → Option (Nat × List Char)
  | _, [] => none
  | passed, '*' :: '/' :: rest => some (passed + 2, rest)
  | passed, _ :: rest => afterComment? (passed + 1) rest

theorem afterComment?_length {passed : Nat} {s : List Char} {result : Nat × List Char}
    (h : afterComment? passed s = some result) : result.2.length < s.length := by
  fun_induction afterComment? passed s with
  | case1 => cases h
  | case2 passed rest => cases h; simp only [List.length_cons]; omega
  | case3 passed c rest _ ih => exact Nat.lt_succ_of_lt (ih h)

/-- A gap: its width, whether a line feed stands in it outside of comments, and what
follows it. -/
structure Gap where
  width : Nat
  breaksLine : Bool
  rest : List Char

/-- Reads the gap at the front of a text. A comment that never ends is not a gap. -/
def readGap (width : Nat) (breaksLine : Bool) : List Char → Gap
  | [] => ⟨width, breaksLine, []⟩
  | c :: rest =>
    if isGapChar c then readGap (width + 1) (breaksLine || c == '\n') rest
    else if c == '/' then
      match rest with
      | '/' :: line =>
        readGap (width + 2 + (line.takeWhile (!isLineEnd ·)).length) breaksLine
          (line.dropWhile (!isLineEnd ·))
      | '*' :: block =>
        match _h : afterComment? 0 block with
        | some after => readGap (width + 2 + after.1) breaksLine after.2
        | none => ⟨width, breaksLine, c :: rest⟩
      | _ => ⟨width, breaksLine, c :: rest⟩
    else ⟨width, breaksLine, c :: rest⟩
termination_by s => s.length
decreasing_by
  · simp
  · have := (List.dropWhile_sublist (!isLineEnd ·) (l := line)).length_le
    simp only [List.length_cons]
    omega
  · have := afterComment?_length _h
    simp only [List.length_cons]
    omega

abbrev Split := List Char × List Char

theorem afterEscape?_length {s rest : List Char} (h : Escape.afterEscape? s = some rest) :
    rest.length < s.length := by
  unfold Escape.afterEscape? at h
  split at h
  · cases h
  · split at h
    · cases h; simp only [List.length_cons]; omega
    · cases h
  · cases h
  · split at h
    · have h₁ := afterHead?_eq_some_iff.mp h
      have h₂ := (List.dropWhile_sublist isHexDigit (l := ‹List Char›)).length_le
      rw [h₁] at h₂
      simp at h₂ ⊢
      omega
    · cases h
  · split at h
    · cases h; simp only [List.length_cons]; omega
    · cases h
  · cases h
  · cases h; simp only [List.length_cons]; omega
  · cases h; simp

def readName : List Char → Split
  | [] => ([], [])
  | c :: rest =>
    if isNamePart c then
      let (part, after) := readName rest
      (c :: part, after)
    else if c == '\\' && rest.head? == some 'u' then
      match _h : Escape.afterEscape? rest with
      | some more =>
        let (part, after) := readName more
        (c :: (rest.take (rest.length - more.length) ++ part), after)
      | none => ([], c :: rest)
    else ([], c :: rest)
termination_by s => s.length
decreasing_by
  · simp
  · have := afterEscape?_length _h
    simp only [List.length_cons]
    omega

def readDigits (isDigit : Char → Bool) : List Char → Split
  | [] => ([], [])
  | '_' :: c :: rest =>
    if isDigit c then
      let (part, after) := readDigits isDigit rest
      ('_' :: c :: part, after)
    else ([], '_' :: c :: rest)
  | c :: rest =>
    if isDigit c then
      let (part, after) := readDigits isDigit rest
      (c :: part, after)
    else ([], c :: rest)

def readSuffix : List Char → Split
  | 'n' :: rest => (['n'], rest)
  | s => ([], s)

def readSign : List Char → Split
  | '+' :: rest => (['+'], rest)
  | '-' :: rest => (['-'], rest)
  | s => ([], s)

def readFraction (s : List Char) : Split :=
  if ((s.head?.map isDigit).getD false) then readDigits isDigit s else ([], s)

def readPower (s : List Char) : Split :=
  match s with
  | [] => ([], [])
  | e :: rest =>
    if e == 'e' || e == 'E' then
      let (sign, more) := readSign rest
      let (digits, after) := readFraction more
      if digits.isEmpty then ([], s) else (e :: (sign ++ digits), after)
    else ([], s)

/-- Only these whole parts may be followed by a point: zero, or digits with at most one zero
in front. -/
def mayHavePoint : List Char → Bool
  | ['0'] => true
  | '0' :: c :: _ => c != '0' && c != '_'
  | _ => true

def readDecimal (s : List Char) : Split :=
  let (whole, rest) := readDigits isDigit s
  match rest with
  | 'n' :: after => (whole ++ ['n'], after)
  | '.' :: more =>
    if mayHavePoint whole then
      let (fraction, rest) := readFraction more
      let (power, after) := readPower rest
      (whole ++ '.' :: (fraction ++ power), after)
    else (whole, rest)
  | _ =>
    let (power, after) := readPower rest
    (whole ++ power, after)

def baseDigits? (mark : Char) : Option (Char → Bool) :=
  if mark == 'x' || mark == 'X' then some isHexDigit
  else if mark == 'o' || mark == 'O' then some isOctalDigit
  else if mark == 'b' || mark == 'B' then some fun c => c == '0' || c == '1'
  else none

def readNumber (s : List Char) : Split :=
  match s with
  | '.' :: rest =>
    let (fraction, more) := readDigits isDigit rest
    let (power, after) := readPower more
    ('.' :: (fraction ++ power), after)
  | '0' :: mark :: c :: rest =>
    match baseDigits? mark with
    | some isBaseDigit =>
      if isBaseDigit c then
        let (digits, more) := readDigits isBaseDigit (c :: rest)
        let (suffix, after) := readSuffix more
        ('0' :: mark :: (digits ++ suffix), after)
      else readDecimal s
    | none => readDecimal s
  | _ => readDecimal s

/-- The rest of a string literal up to its closing quote, which belongs to it. The flag says
whether the literal is whole. -/
def readString (quote : Char) : List Char → Bool × Split
  | [] => (false, [], [])
  | c :: rest =>
    if c == quote then (true, [c], rest)
    else if c == '\\' then
      match _h : Escape.afterEscape? rest with
      | some more =>
        let (whole, part, after) := readString quote more
        (whole, c :: (rest.take (rest.length - more.length) ++ part), after)
      | none => (false, [], c :: rest)
    else if c == '\n' || c == '\r' then (false, [], c :: rest)
    else
      let (whole, part, after) := readString quote rest
      (whole, c :: part, after)
termination_by s => s.length
decreasing_by
  · have := afterEscape?_length _h
    simp only [List.length_cons]
    omega
  · simp

/-- Marks of more than one character, longer ones before their beginnings. -/
def longMarks : List (List Char) :=
  ["...", "===", "!==", "**=", "??=", "=>", "==", "!=", "**", "++", "--", "+=", "-=", "*=",
    "%=", "^=", "??", "?."].map String.toList

/-- The mark at the front of a text. A question mark before a decimal fraction stands alone. -/
def readMark (s : List Char) : Split :=
  match longMarks.findSome? fun mark => (afterHead? mark s).map fun rest => (mark, rest) with
  | some (mark, rest) =>
    if mark == ['?', '.'] && ((rest.head?.map isDigit).getD false) then (['?'], '.' :: rest)
    else (mark, rest)
  | none => (s.take 1, s.drop 1)

def markStarts : List Char := ":;@.,|^&<=>+-*/%?!~()[]\x7b\x7d".toList

def readToken (s : List Char) : Token × List Char :=
  match s with
  | [] => (⟨.finish, []⟩, [])
  | c :: rest =>
    if isNameStart c || c == '\\' then
      match readName s with
      | ([], _) => (⟨.stray, [c]⟩, rest)
      | (name, after) => (⟨.word, name⟩, after)
    else if isDigit c || (c == '.' && ((rest.head?.map isDigit).getD false)) then
      let (number, after) := readNumber s
      (⟨.number, number⟩, after)
    else if c == '"' || c == '\'' then
      let (whole, part, after) := readString c rest
      (⟨if whole then .string else .brokenString, c :: part⟩, after)
    else if c == '\x60' then (⟨.template, [c]⟩, rest)
    else if c == '#' then
      if ((rest.head?.map isNameStart).getD false) then
        let (name, after) := readName rest
        (⟨.privateName, c :: name⟩, after)
      else (⟨.stray, [c]⟩, rest)
    else if markStarts.contains c then
      let (mark, after) := readMark s
      (⟨.mark, mark⟩, after)
    else (⟨.stray, [c]⟩, rest)

end DeclSchema.Syntax
