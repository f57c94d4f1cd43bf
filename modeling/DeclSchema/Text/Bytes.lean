import DeclSchema.Text.Escape

/-! # Text from bytes

Files hold bytes, which are read as UTF-8. A strict reading refuses bytes that are no UTF-8;
a lenient one puts the replacement character for every stretch that begins no character.
-/
namespace DeclSchema.Text

def replacement : Char := '\ufffd'

def byteOrderMark : Char := '\ufeff'

/-- The shape of a character that begins with this byte: how many bytes follow, the bits that
the first byte contributes, and the range of the second byte. -/
def leadByte? (b : Nat) : Option (Nat × Nat × Nat × Nat) :=
  if b < 0x80 then some (0, b, 0x80, 0xBF)
  else if 0xC2 ≤ b && b ≤ 0xDF then some (1, b - 0xC0, 0x80, 0xBF)
  else if b == 0xE0 then some (2, 0, 0xA0, 0xBF)
  else if b == 0xED then some (2, 0xD, 0x80, 0x9F)
  else if 0xE1 ≤ b && b ≤ 0xEF then some (2, b - 0xE0, 0x80, 0xBF)
  else if b == 0xF0 then some (3, 0, 0x90, 0xBF)
  else if 0xF1 ≤ b && b ≤ 0xF3 then some (3, b - 0xF0, 0x80, 0xBF)
  else if b == 0xF4 then some (3, 4, 0x80, 0x8F)
  else none

/-- The number that so many following bytes complete; none if one of them does not fit. The
bytes that do not belong to it are left. -/
def following (least greatest : Nat) : Nat → Nat → List Nat → Option Nat × List Nat
  | 0, value, rest => (some value, rest)
  | _ + 1, _, [] => (none, [])
  | n + 1, value, b :: rest =>
    if least ≤ b && b ≤ greatest then following 0x80 0xBF n (64 * value + (b - 0x80)) rest
    else (none, b :: rest)

theorem following_length (least greatest n value : Nat) (bytes : List Nat) :
    (following least greatest n value bytes).2.length ≤ bytes.length := by
  fun_induction following least greatest n value bytes with
  | case1 => exact Nat.le_refl _
  | case2 => exact Nat.le_refl _
  | case3 _ _ _ _ _ _ _ ih => exact Nat.le_succ_of_le ih
  | case4 => exact Nat.le_refl _

def lenientChars : List Nat → List Char
  | [] => []
  | b :: rest =>
    match leadByte? b with
    | none => replacement :: lenientChars rest
    | some (count, bits, least, greatest) =>
      ((following least greatest count bits rest).1.bind Escape.scalar?).getD replacement
        :: lenientChars (following least greatest count bits rest).2
termination_by bytes => bytes.length
decreasing_by
  · simp
  · have := following_length least greatest count bits rest
    simp only [List.length_cons]
    omega

def strictText? (bytes : ByteArray) : Option String := String.fromUTF8? bytes

def lenientText (bytes : ByteArray) : String :=
  (strictText? bytes).getD (String.ofList (lenientChars (bytes.toList.map UInt8.toNat)))

def withoutMark (s : List Char) : List Char := (afterHead? [byteOrderMark] s).getD s

end DeclSchema.Text
