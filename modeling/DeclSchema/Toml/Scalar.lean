import DeclSchema.Toml.Basic

/-! # Numbers and dates

The spellings of numbers, dates and times in a TOML document. A whole number has 64 bits, a
fraction must not be too large for a double, and a date or time must exist in the calendar.
-/
namespace DeclSchema.Toml
open Text Decimal

def ungrouped? (isDigit : Char → Bool) : List Char → Option (List Char)
  | [] => none
  | [c] => if isDigit c then some [c] else none
  | c :: '_' :: rest => if isDigit c then (ungrouped? isDigit rest).map (c :: ·) else none
  | c :: rest => if isDigit c then (ungrouped? isDigit rest).map (c :: ·) else none

/-- A whole number without a sign; only zero itself begins with zero. -/
def wholeDigits? (s : List Char) : Option (List Char) :=
  (ungrouped? isDigit s).filter fun digits => digits.length == 1 || digits.head? != some '0'

def basedInteger? (s : List Char) : Option Int :=
  let read (base : Nat) (isBaseDigit : Char → Bool) (rest : List Char) : Option Int :=
    (ungrouped? isBaseDigit rest).bind fun digits =>
      let n := digitsValue base digits
      if n < Nat.pow 2 63 then some (n : Int) else none
  match s with
  | '0' :: 'x' :: rest => read 16 isHexDigit rest
  | '0' :: 'o' :: rest => read 8 isOctalDigit rest
  | '0' :: 'b' :: rest => read 2 (fun c => c == '0' || c == '1') rest
  | _ => none

def decimalInteger? (s : List Char) : Option Int :=
  let (negative, body) := splitSign s
  (wholeDigits? body).bind fun digits =>
    integer? (if negative then '-' :: digits else digits)

def fractionText? (s : List Char) : Option (List Char) :=
  let powerText? (s : List Char) : Option (List Char) :=
    match s with
    | [] => some []
    | e :: rest =>
      if e == 'e' || e == 'E' then
        let (negative, body) := splitSign rest
        (ungrouped? isDigit body).map fun digits =>
          e :: ((if negative then ['-'] else []) ++ digits)
      else none
  match s with
  | '.' :: rest =>
    let isPart (c : Char) : Bool := isDigit c || c == '_'
    match ungrouped? isDigit (rest.takeWhile isPart), powerText? (rest.dropWhile isPart) with
    | some digits, some power => some ('.' :: (digits ++ power))
    | _, _ => none
  | [] => none
  | s => powerText? s

def float? (s : List Char) : Option Double :=
  let (negative, body) := splitSign s
  if body == "inf".toList then some (.infinite negative)
  else if body == "nan".toList then some .notANumber
  else
    let isPart (c : Char) : Bool := isDigit c || c == '_'
    match wholeDigits? (body.takeWhile isPart), fractionText? (body.dropWhile isPart) with
    | some whole, some fraction =>
      match double? ((if negative then ['-'] else []) ++ whole ++ fraction) with
      | some (.infinite false) => none
      | result => result
    | _, _ => none

def pair? (a b : Char) : Option Nat :=
  if isDigit a && isDigit b then some (digitsValue 10 [a, b]) else none

def daysIn (year month : Nat) : Nat :=
  if month == 2 then
    if year % 4 == 0 && (year % 100 != 0 || year % 400 == 0) then 29 else 28
  else if month == 4 || month == 6 || month == 9 || month == 11 then 30
  else 31

def date? : List Char → Reading (List Char)
  | y₁ :: y₂ :: y₃ :: y₄ :: '-' :: m₁ :: m₂ :: '-' :: d₁ :: d₂ :: rest =>
    match pair? y₁ y₂, pair? y₃ y₄, pair? m₁ m₂, pair? d₁ d₂ with
    | some century, some short, some month, some day =>
      if 1 ≤ month && month ≤ 12 && 1 ≤ day && day ≤ daysIn (100 * century + short) month then
        some ([y₁, y₂, y₃, y₄, '-', m₁, m₂, '-', d₁, d₂], rest)
      else none
    | _, _, _, _ => none
  | _ => none

/-- The written fraction of a second, to nine places and without zeros at its end. -/
def secondFraction (digits : List Char) : List Char :=
  match ((digits.take 9).reverse.dropWhile (· == '0')).reverse with
  | [] => []
  | kept => '.' :: kept

def time? : List Char → Reading (List Char)
  | h₁ :: h₂ :: ':' :: m₁ :: m₂ :: ':' :: s₁ :: s₂ :: rest =>
    match pair? h₁ h₂, pair? m₁ m₂, pair? s₁ s₂ with
    | some hour, some minute, some second =>
      if hour ≤ 23 && minute ≤ 59 && second ≤ 60 then
        let clock := [h₁, h₂, ':', m₁, m₂, ':', s₁, s₂]
        match rest with
        | '.' :: d :: more =>
          if isDigit d then
            let digits := d :: more.takeWhile isDigit
            some (clock ++ secondFraction digits, more.dropWhile isDigit)
          else some (clock, rest)
        | _ => some (clock, rest)
      else none
    | _, _, _ => none
  | _ => none

def offset? : List Char → Option (List Char)
  | [] => some []
  | ['Z'] | ['z'] => some ['Z']
  | [sign, h₁, h₂, ':', m₁, m₂] =>
    match pair? h₁ h₂, pair? m₁ m₂ with
    | some hour, some minute =>
      if (sign == '+' || sign == '-') && hour ≤ 23 && minute ≤ 59 then
        let sign := if hour == 0 && minute == 0 then '+' else sign
        some [sign, h₁, h₂, ':', m₁, m₂]
      else none
    | _, _ => none
  | _ => none

def dateTime? (s : List Char) : Option (List Char) :=
  match date? s with
  | some (date, []) => some date
  | some (date, mark :: rest) =>
    if mark == 'T' || mark == 't' || mark == ' ' then
      (time? rest).bind fun (clock, rest) =>
        (offset? rest).map fun offset => date ++ 'T' :: (clock ++ offset)
    else none
  | none =>
    match time? s with
    | some (clock, []) => some clock
    | _ => none

def isBareValue (c : Char) : Bool :=
  isDigit c || isLower c || isUpper c || "+-_.:".toList.contains c

def bareValue? (s : List Char) : Option Toml :=
  if s == "true".toList then some (.boolean true)
  else if s == "false".toList then some (.boolean false)
  else
    match dateTime? s with
    | some text => some (.string (String.ofList text))
    | none =>
      match float? s with
      | some x => some (.float x)
      | none => ((basedInteger? s).orElse fun _ => decimalInteger? s).map .integer

/-- The text of a bare value at the front of a text, and what follows it. A blank between a
date and a time belongs to the value. -/
def bareText (s : List Char) : List Char × List Char :=
  let first := s.takeWhile isBareValue
  let rest := s.dropWhile isBareValue
  match date? first, rest with
  | some (_, []), ' ' :: d :: more =>
    if isDigit d then
      (first ++ ' ' :: d :: more.takeWhile isBareValue, more.dropWhile isBareValue)
    else (first, rest)
  | _, _ => (first, rest)

end DeclSchema.Toml
