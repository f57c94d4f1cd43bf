import DeclSchema.Text.Escape
import DeclSchema.Toml.Basic

/-! # Quoted strings

A string is quoted in one of four ways: with escapes or without, on one line or on several.
`quote` chooses the way. Quotes without escapes serve texts with backslashes, as far as every
character can stand for itself; a line feed calls for the form on several lines.
-/
namespace DeclSchema.Toml
open Text

def hexEscape? (count : Nat) (s : List Char) : Reading Char :=
  let digits := s.take count
  if digits.length == count && digits.all isHexDigit then
    (Escape.scalar? (digitsValue 16 digits)).map fun c => (c, s.drop count)
  else none

def escape? : List Char → Reading Char
  | [] => none
  | c :: rest =>
    match c with
    | 'b' => some ('\x08', rest)
    | 't' => some ('\t', rest)
    | 'n' => some ('\n', rest)
    | 'f' => some ('\x0c', rest)
    | 'r' => some ('\r', rest)
    | '"' => some ('"', rest)
    | '\\' => some ('\\', rest)
    | 'u' => hexEscape? 4 rest
    | 'U' => hexEscape? 8 rest
    | _ => none

theorem hexEscape?_length {count : Nat} {s rest : List Char} {c : Char}
    (h : hexEscape? count s = some (c, rest)) : rest.length ≤ s.length := by
  simp only [hexEscape?] at h
  split at h
  · obtain ⟨d, -, hd⟩ := Option.map_eq_some_iff.mp h
    cases hd
    simp
  · cases h

theorem escape?_length {s rest : List Char} {c : Char} (h : escape? s = some (c, rest)) :
    rest.length < s.length := by
  fun_cases escape? s <;> simp_all [escape?]
  case case9 => have := hexEscape?_length h; omega
  case case10 => have := hexEscape?_length h; omega

def prepend (c : Char) (reading : Reading (List Char)) : Reading (List Char) :=
  reading.map fun (body, rest) => (c :: body, rest)

def basicBody (s : List Char) : Reading (List Char) :=
  match s with
  | [] => none
  | '"' :: rest => some ([], rest)
  | '\\' :: rest =>
    match _h : escape? rest with
    | some (c, more) => prepend c (basicBody more)
    | none => none
  | c :: rest => if isPlain c then prepend c (basicBody rest) else none
termination_by s.length
decreasing_by
  · have := escape?_length _h
    simp only [List.length_cons]
    omega
  · simp

def literalBody : List Char → Reading (List Char)
  | [] => none
  | '\'' :: rest => some ([], rest)
  | c :: rest => if isPlain c then prepend c (literalBody rest) else none

/-- Up to two more quotes right behind three closing ones still belong to the string. -/
def closing (quote : Char) (rest : List Char) : List Char × List Char :=
  let extra := ((rest.take 2).takeWhile (· == quote))
  (extra, rest.drop extra.length)

/-- What follows a backslash at the end of a line: the blanks and line ends up to the next
character. -/
def afterContinuation? (s : List Char) : Option (List Char) :=
  (afterLineEnd? (s.dropWhile isSpace)).map fun rest =>
    rest.dropWhile fun c => isSpace c || c == '\n' || c == '\r'

theorem afterLineEnd?_length {s rest : List Char} (h : afterLineEnd? s = some rest) :
    rest.length < s.length := by
  unfold afterLineEnd? at h
  split at h
  · cases h; exact Nat.lt_succ_self _
  · cases h; exact Nat.lt_succ_of_lt (Nat.lt_succ_self _)
  · cases h

theorem afterContinuation?_length {s rest : List Char} (h : afterContinuation? s = some rest) :
    rest.length < s.length := by
  obtain ⟨r, hr, rfl⟩ := Option.map_eq_some_iff.mp h
  have h₁ := afterLineEnd?_length hr
  have h₂ := (List.dropWhile_sublist isSpace (l := s)).length_le
  have h₃ := (List.dropWhile_sublist (fun c => isSpace c || c == '\n' || c == '\r') (l := r)).length_le
  omega

def basicLines (s : List Char) : Reading (List Char) :=
  match s with
  | [] => none
  | '"' :: '"' :: '"' :: rest => some (closing '"' rest)
  | '\\' :: rest =>
    match _h : escape? rest, _k : afterContinuation? rest with
    | some (c, more), _ => prepend c (basicLines more)
    | none, some more => basicLines more
    | none, none => none
  | '\r' :: '\n' :: rest => prepend '\n' (basicLines rest)
  | c :: rest => if isPlain c || c == '\n' then prepend c (basicLines rest) else none
termination_by s.length
decreasing_by
  · have := escape?_length _h
    simp only [List.length_cons]
    omega
  · have := afterContinuation?_length _k
    simp only [List.length_cons]
    omega
  · simp only [List.length_cons]
    omega
  · simp

def literalLines : List Char → Reading (List Char)
  | [] => none
  | '\'' :: '\'' :: '\'' :: rest => some (closing '\'' rest)
  | '\r' :: '\n' :: rest => prepend '\n' (literalLines rest)
  | c :: rest => if isPlain c || c == '\n' then prepend c (literalLines rest) else none

/-- A line end right behind the opening quotes is no part of the string. -/
def dropLineEnd (s : List Char) : List Char := (afterLineEnd? s).getD s

def unquoted? : List Char → Reading (List Char)
  | '"' :: '"' :: '"' :: rest => basicLines (dropLineEnd rest)
  | '"' :: rest => basicBody rest
  | '\'' :: '\'' :: '\'' :: rest => literalLines (dropLineEnd rest)
  | '\'' :: rest => literalBody rest
  | _ => none

def hexDigit (n : Nat) : Char := (Nat.digitChar (n % 16)).toUpper

def spell (onLines : Bool) (c : Char) : List Char :=
  match c with
  | '\x08' => ['\\', 'b']
  | '\t' => ['\\', 't']
  | '\n' => if onLines then ['\n'] else ['\\', 'n']
  | '\x0c' => ['\\', 'f']
  | '\r' => ['\\', 'r']
  | '"' => ['\\', '"']
  | '\\' => ['\\', '\\']
  | c =>
    if isPlain c then [c]
    else ['\\', 'u', '0', '0', hexDigit (c.toNat / 16), hexDigit c.toNat]

def hasTripleQuote : List Char → Bool
  | '\'' :: '\'' :: '\'' :: _ => true
  | _ :: rest => hasTripleQuote rest
  | [] => false

def suitsLiteral (s : List Char) : Bool :=
  s.contains '\\' && s.all (fun c => isPlain c || c == '\n') && !hasTripleQuote s
    && s.getLast? != some '\''

def quote (s : List Char) : List Char :=
  let onLines := s.contains '\n'
  if suitsLiteral s then
    if onLines then "'''\n".toList ++ s ++ "'''".toList
    else if s.contains '\'' then "'''".toList ++ s ++ "'''".toList
    else "'".toList ++ s ++ "'".toList
  else
    let body := s.flatMap (spell onLines)
    if onLines then "\"\"\"\n".toList ++ body ++ "\"\"\"".toList
    else "\"".toList ++ body ++ "\"".toList

end DeclSchema.Toml
