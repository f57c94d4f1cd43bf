import DeclSchema.Json.Basic
import DeclSchema.Text.Escape

/-! # Reading JSON

A reader for the whole grammar of JSON texts. It keeps the order of the members of an object
and the text of every number. A text has at most one value, since the reader is a function.
-/
namespace DeclSchema.Json
open Text

inductive Tree
  | null
  | boolean (value : Bool)
  | number (text : String)
  | string (value : String)
  | array (items : List Tree)
  | object (members : List (String × Tree))

namespace Tree

abbrev Split := List Char × List Char

def isSpacing (c : Char) : Bool := c == ' ' || c == '\t' || c == '\n' || c == '\r'

def skip (s : List Char) : List Char := s.dropWhile isSpacing

def readDigits (s : List Char) : Option Split :=
  if (s.takeWhile isDigit).isEmpty then none
  else some (s.takeWhile isDigit, s.dropWhile isDigit)

def readWhole : List Char → Option Split
  | '0' :: rest => some (['0'], rest)
  | s => readDigits s

def readFraction : List Char → Option Split
  | '.' :: rest => (readDigits rest).map fun (digits, after) => ('.' :: digits, after)
  | s => some ([], s)

def readSign : List Char → Split
  | '+' :: rest => (['+'], rest)
  | '-' :: rest => (['-'], rest)
  | s => ([], s)

def readPower : List Char → Option Split
  | [] => some ([], [])
  | e :: rest =>
    if e == 'e' || e == 'E' then
      (readDigits (readSign rest).2).map fun (digits, after) =>
        (e :: ((readSign rest).1 ++ digits), after)
    else some ([], e :: rest)

def readUnsigned (s : List Char) : Option Split := do
  let (whole, s) ← readWhole s
  let (fraction, s) ← readFraction s
  let (power, s) ← readPower s
  return (whole ++ (fraction ++ power), s)

def readNumber : List Char → Option Split
  | '-' :: rest => (readUnsigned rest).map fun (text, after) => ('-' :: text, after)
  | s => readUnsigned s

def escaped? (c : Char) : Option Char :=
  match c with
  | '"' => some '"'
  | '\\' => some '\\'
  | '/' => some '/'
  | 'b' => some '\x08'
  | 'f' => some '\x0c'
  | 'n' => some '\n'
  | 'r' => some '\r'
  | 't' => some '\t'
  | _ => none

/-- The unit of UTF-16 that four hexadecimal digits name. -/
def unit? (digits : List Char) : Option Nat :=
  if digits.all isHexDigit then some (digitsValue 16 digits) else none

def pair? (high low : Nat) : Option Char :=
  if 0xD800 ≤ high && high < 0xDC00 && 0xDC00 ≤ low && low < 0xE000 then
    Escape.scalar? (0x10000 + (high - 0xD800) * 0x400 + (low - 0xDC00))
  else none

def readString : List Char → Option Split
  | [] => none
  | '\\' :: 'u' :: a :: b :: c :: d :: rest =>
    (unit? [a, b, c, d]).bind fun high =>
      match Escape.scalar? high with
      | some char => (readString rest).map fun (s, after) => (char :: s, after)
      | none =>
        match rest with
        | '\\' :: 'u' :: e :: f :: g :: h :: more =>
          ((unit? [e, f, g, h]).bind (pair? high)).bind fun char =>
            (readString more).map fun (s, after) => (char :: s, after)
        | _ => none
  | '\\' :: c :: rest =>
    (escaped? c).bind fun char => (readString rest).map fun (s, after) => (char :: s, after)
  | c :: rest =>
    if c == '"' then some ([], rest)
    else if c == '\\' || c.toNat < 0x20 then none
    else (readString rest).map fun (s, after) => (c :: s, after)

def words : List (String × Tree) :=
  [("null", null), ("true", boolean true), ("false", boolean false)]

def readWord (s : List Char) : Option (Tree × List Char) :=
  words.findSome? fun (word, tree) => (afterHead? word.toList s).map fun rest => (tree, rest)

mutual

/-- Reads a value with the white space before it. Every step to an inner value takes a
character, so a bound on the steps is at hand. -/
def readValue : Nat → List Char → Option (Tree × List Char)
  | 0, _ => none
  | steps + 1, s =>
    match skip s with
    | '[' :: rest =>
      match skip rest with
      | ']' :: after => some (array [], after)
      | _ => (readItems steps rest).map fun (items, after) => (array items, after)
    | '{' :: rest =>
      match skip rest with
      | '}' :: after => some (object [], after)
      | _ => (readMembers steps rest).map fun (members, after) => (object members, after)
    | '"' :: rest => (readString rest).map fun (s, after) => (string (String.ofList s), after)
    | s =>
      (readWord s).orElse fun _ =>
        (readNumber s).map fun (text, after) => (number (String.ofList text), after)

def readItems : Nat → List Char → Option (List Tree × List Char)
  | 0, _ => none
  | steps + 1, s =>
    (readValue steps s).bind fun (item, rest) =>
      match skip rest with
      | ',' :: more => (readItems steps more).map fun (items, after) => (item :: items, after)
      | ']' :: after => some ([item], after)
      | _ => none

def readMembers : Nat → List Char → Option (List (String × Tree) × List Char)
  | 0, _ => none
  | steps + 1, s =>
    match skip s with
    | '"' :: rest =>
      (readString rest).bind fun (name, rest) =>
        match skip rest with
        | ':' :: rest =>
          (readValue steps rest).bind fun (value, rest) =>
            match skip rest with
            | ',' :: more =>
              (readMembers steps more).map fun (members, after) =>
                ((String.ofList name, value) :: members, after)
            | '}' :: after => some ([(String.ofList name, value)], after)
            | _ => none
        | _ => none
    | _ => none

end

def read? (text : String) : Option Tree :=
  match readValue (text.toList.length + 1) text.toList with
  | some (tree, rest) => if (skip rest).isEmpty then some tree else none
  | none => none

end Tree
end DeclSchema.Json
