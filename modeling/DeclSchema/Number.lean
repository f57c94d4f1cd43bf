import DeclSchema.Decimal.Reading
import DeclSchema.Decimal.Shortest

/-! # Numbers as values

A number is a whole number or a finite double, and is compared by its text. Two readings
produce numbers: the text of a numeric literal, and the number text of a JSON document.
-/
namespace DeclSchema
open Text Decimal

inductive Number
  | whole (value : Int)
  | double (value : Binary64)
deriving Repr, DecidableEq

namespace Number

def text : Number → String
  | whole n => toString n
  | double d => d.write Layout.interchange

/-- Reads a numeric literal: as a whole number of 64 bits if it is one, else as a finite
double. Other spellings (hexadecimal, separated, with a suffix) are no numbers here. -/
def ofLiteral? (s : String) : Option Number :=
  match integer? s.toList with
  | some n => some (whole n)
  | none =>
    match double? s.toList with
    | some (.finite d) => some (double d)
    | _ => none

/-- The digits of a number that still fit below 2^64 when read from the left, how many
digits that leaves over, and the value so far. -/
def significand (value : Nat) : List Char → Nat × List Char
  | [] => (value, [])
  | c :: rest =>
    if value * 10 + digitValue c < Nat.pow 2 64 then significand (value * 10 + digitValue c) rest
    else (value, c :: rest)

def scaled (negative : Bool) (value : Nat) (power : Int) : Option Binary64 :=
  match Binary64.nearest negative value 1, Binary64.nearest false (Nat.pow 10 power.natAbs) 1 with
  | .finite v, .finite p =>
    let (vn, vd) := v.quotient
    let (pn, pd) := p.quotient
    let result :=
      if 0 ≤ power then Binary64.nearest negative (vn * pn) (vd * pd)
      else Binary64.nearest negative (vn * pd) (vd * pn)
    match result with
    | .finite d => some d
    | _ => none
  | _, _ => none

/-- `value · 10 ^ power` in one rounded step; a power below -308 takes a first step down. -/
def ofParts (negative : Bool) (value : Nat) (power : Int) : Option Binary64 :=
  if value == 0 || power < -700 then some (.zero negative)
  else if power > 308 then none
  else if power < -308 then
    (scaled negative value (-308)).bind fun d =>
      match Binary64.nearest false (Nat.pow 10 (-power - 308).toNat) 1 with
      | .finite p =>
        let (dn, dd) := d.quotient
        let (pn, pd) := p.quotient
        match Binary64.nearest negative (dn * pd) (dd * pn) with
        | .finite d => some d
        | _ => none
      | _ => none
  else scaled negative value power

/-- Reads the number text of a JSON document: whole numbers from -2^63 up to 2^64 - 1 stay
whole except for a negative zero, all others become doubles from their leading digits. -/
def ofJson? (s : String) : Option Number :=
  let (negative, body) :=
    match s.toList with
    | '-' :: rest => (true, rest)
    | cs => (false, cs)
  let digits := body.takeWhile isDigit
  let rest := body.dropWhile isDigit
  if digits.isEmpty || (digits.length > 1 && digits.head? == some '0') then none
  else
    let (value, excess) := significand 0 digits
    let (fraction, rest) :=
      match rest with
      | '.' :: more => (some (more.takeWhile isDigit), more.dropWhile isDigit)
      | more => (none, more)
    if fraction == some [] then none
    else
      match power? rest with
      | none => none
      | some power =>
        if fraction.isNone && rest.isEmpty && excess.isEmpty
            && (!negative || (value != 0 && value ≤ Nat.pow 2 63)) then
          some (whole (if negative then -(value : Int) else value))
        else
          let places := fraction.getD []
          let (value, left) := if excess.isEmpty then significand value places else (value, places)
          let used : Int := places.length - left.length
          (ofParts negative value (power + excess.length - used)).map double

end Number
end DeclSchema
