import DeclSchema.Number
import DeclSchema.Text.Chars

/-! # JSON documents and their text

A document is written in one of two formats. The compact one has no white space; the
indented one puts every element on a line of its own, two spaces deeper than its parent,
and keeps empty containers on one line.
-/
namespace DeclSchema

inductive Json
  | null
  | boolean (value : Bool)
  | number (value : Number)
  | string (value : String)
  | array (items : List Json)
  /-- Members in the order in which they are written. -/
  | object (members : List (String × Json))

namespace Json

def hexDigit (n : Nat) : Char := (Nat.digitChar (n % 16))

def spell (c : Char) : List Char :=
  match c with
  | '"' => ['\\', '"']
  | '\\' => ['\\', '\\']
  | '\x08' => ['\\', 'b']
  | '\x0c' => ['\\', 'f']
  | '\n' => ['\\', 'n']
  | '\r' => ['\\', 'r']
  | '\t' => ['\\', 't']
  | c =>
    if c.toNat < 0x20 then ['\\', 'u', '0', '0', hexDigit (c.toNat / 16), hexDigit c.toNat]
    else [c]

def quoted (s : String) : List Char := '"' :: (s.toList.flatMap spell ++ ['"'])

def boolText (b : Bool) : List Char := if b then "true".toList else "false".toList

def enclosed (before : Char) (parts : List (List Char)) (after : Char) : List Char :=
  before :: (Text.joinWith [','] parts ++ [after])

mutual

def compactChars : Json → List Char
  | null => "null".toList
  | boolean b => boolText b
  | number n => n.text.toList
  | string s => quoted s
  | array items => enclosed '[' (compactItems items) ']'
  | object members => enclosed '{' (compactMembers members) '}'

def compactItems : List Json → List (List Char)
  | [] => []
  | item :: rest => compactChars item :: compactItems rest

def compactMembers : List (String × Json) → List (List Char)
  | [] => []
  | (name, value) :: rest => (quoted name ++ ':' :: compactChars value) :: compactMembers rest

end

def newLine (depth : Nat) : List Char := '\n' :: List.replicate (2 * depth) ' '

def block (before : Char) (depth : Nat) (parts : List (List Char)) (after : Char) : List Char :=
  if parts.isEmpty then [before, after]
  else
    before :: (newLine (depth + 1) ++ Text.joinWith (',' :: newLine (depth + 1)) parts
      ++ newLine depth ++ [after])

mutual

def indentedChars (depth : Nat) : Json → List Char
  | null => "null".toList
  | boolean b => boolText b
  | number n => n.text.toList
  | string s => quoted s
  | array items => block '[' depth (indentedItems (depth + 1) items) ']'
  | object members => block '{' depth (indentedMembers (depth + 1) members) '}'

def indentedItems (depth : Nat) : List Json → List (List Char)
  | [] => []
  | item :: rest => indentedChars depth item :: indentedItems depth rest

def indentedMembers (depth : Nat) : List (String × Json) → List (List Char)
  | [] => []
  | (name, value) :: rest =>
    (quoted name ++ ':' :: ' ' :: indentedChars depth value) :: indentedMembers depth rest

end

def compact (j : Json) : String := String.ofList j.compactChars

def indented (j : Json) : String := String.ofList (j.indentedChars 0)

end Json
end DeclSchema
