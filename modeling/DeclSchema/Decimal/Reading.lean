import DeclSchema.Decimal.Binary64
import DeclSchema.Text.Chars

/-! # Reading numbers

Two grammars of number text. `integer?` reads a signed whole number of 64 bits;
`double?` reads a decimal fraction with an optional power of ten, or one of the words
for infinity and not-a-number.
-/
namespace DeclSchema.Decimal
open Text

def splitSign : List Char → Bool × List Char
  | '-' :: rest => (true, rest)
  | '+' :: rest => (false, rest)
  | s => (false, s)

def integer? (s : List Char) : Option Int :=
  let (negative, digits) := splitSign s
  if digits.isEmpty || !digits.all isDigit then none
  else
    let n : Int := digitsValue 10 digits
    let value := if negative then -n else n
    if -(Nat.pow 2 63 : Int) ≤ value && value < (Nat.pow 2 63 : Int) then some value else none

/-- Reads the power of ten at the end of a number; nothing at all means zero. -/
def power? : List Char → Option Int
  | [] => some 0
  | c :: rest =>
    if c == 'e' || c == 'E' then
      let (negative, digits) := splitSign rest
      if digits.isEmpty || !digits.all isDigit then none
      else some (if negative then -(digitsValue 10 digits : Int) else digitsValue 10 digits)
    else none

def decimal? (s : List Char) : Option (Nat × Int) :=
  let whole := s.takeWhile isDigit
  let rest := s.dropWhile isDigit
  let (fraction, rest) :=
    match rest with
    | '.' :: more => (more.takeWhile isDigit, more.dropWhile isDigit)
    | more => ([], more)
  if whole.isEmpty && fraction.isEmpty then none
  else (power? rest).map fun power =>
    (digitsValue 10 (whole ++ fraction), power - fraction.length)

def double? (s : List Char) : Option Double :=
  let (negative, body) := splitSign s
  match decimal? body with
  | some (digits, power) => some (.ofDecimal negative digits power)
  | none =>
    let word := body.map lowerChar
    if word == "inf".toList || word == "infinity".toList then some (.infinite negative)
    else if word == "nan".toList then some .notANumber
    else none

end DeclSchema.Decimal
