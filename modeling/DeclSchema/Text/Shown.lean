import DeclSchema.Text.Chars

/-! # Shown text

File names are shown to users in quotes. Characters that would not be seen as what they are
(controls, blanks other than the space, marks that combine with the character before them,
characters for private use) are written by their numbers.
-/
namespace DeclSchema.Text

/-- Ranges of format controls, of combining marks and of private use. -/
def unseenRanges : List (Nat × Nat) :=
  [(0x7F, 0x9F), (0xAD, 0xAD), (0x300, 0x36F), (0x483, 0x489), (0x591, 0x5BD), (0x600, 0x605),
    (0x610, 0x61A), (0x61C, 0x61C), (0x64B, 0x65F), (0x6DD, 0x6DD), (0x70F, 0x70F),
    (0x180E, 0x180E), (0x1AB0, 0x1ACE), (0x1DC0, 0x1DFF), (0x200B, 0x200F), (0x2028, 0x202E),
    (0x2060, 0x206F), (0x20D0, 0x20F0), (0xE000, 0xF8FF), (0xFE00, 0xFE0F), (0xFE20, 0xFE2F),
    (0xFEFF, 0xFEFF), (0xFFF0, 0xFFFB), (0xFFFE, 0xFFFF), (0xE0000, 0x10FFFF)]

def isUnseen (c : Char) : Bool :=
  c.toNat < 0x20 || (isSpaceSeparator c && c != ' ')
    || unseenRanges.any fun (first, last) => first ≤ c.toNat && c.toNat ≤ last

def showChar (c : Char) : List Char :=
  match c with
  | '\x00' => ['\\', '0']
  | '\t' => ['\\', 't']
  | '\r' => ['\\', 'r']
  | '\n' => ['\\', 'n']
  | '\\' => ['\\', '\\']
  | '"' => ['\\', '"']
  | c =>
    if isUnseen c then "\\u\x7b".toList ++ Nat.toDigits 16 c.toNat ++ ['\x7d']
    else [c]

def shown (s : String) : String := String.ofList ('"' :: (s.toList.flatMap showChar ++ ['"']))

end DeclSchema.Text
