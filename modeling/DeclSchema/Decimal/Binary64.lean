/-! # Binary floating point of 64 bits

A finite double is a sign, a mantissa and a power of two, kept as exact numbers; no
machine arithmetic is involved. `nearest` rounds a quotient of natural numbers to the
nearest double, a tie to the even mantissa.
-/
namespace DeclSchema.Decimal

def Binary64.mantissaBound : Nat := Nat.pow 2 53

/-- The value `± mantissa · 2 ^ exponent`, with a mantissa of 53 bits at most. -/
structure Binary64 where
  negative : Bool
  mantissa : Nat
  exponent : Int
  bounded : mantissa < Binary64.mantissaBound
deriving Repr, DecidableEq

inductive Double
  | finite (value : Binary64)
  | infinite (negative : Bool)
  | notANumber
deriving Repr, DecidableEq

namespace Binary64

def leastExponent : Int := -1074

def greatestExponent : Int := 971

def zero (negative : Bool) : Binary64 := ⟨negative, 0, 0, by decide⟩

def isZero (d : Binary64) : Bool := d.mantissa == 0

def roundHalfEven (num den : Nat) : Nat :=
  let whole := num / den
  let twice := 2 * (num % den)
  if twice < den || (twice == den && whole % 2 == 0) then whole else whole + 1

def scale (num den : Nat) (e : Int) : Nat × Nat :=
  if 0 ≤ e then (num, den * Nat.pow 2 e.toNat) else (num * Nat.pow 2 (-e).toNat, den)

/-- The exponent at which `num / den` has a full mantissa, or the least one. -/
def exponentFor (num den : Nat) : Int :=
  let guess : Int := (Nat.log2 num : Int) - (Nat.log2 den : Int) - 53
  let low := max guess leastExponent
  let (n, d) := scale num den low
  if mantissaBound ≤ n / d then low + 1 else low

/-- A rounded mantissa. One that reaches the bound is half of it at the next exponent. -/
def ofRounded (negative : Bool) (mantissa : Nat) (exponent : Int) : Binary64 :=
  if h : mantissa < mantissaBound then ⟨negative, mantissa, exponent, h⟩
  else ⟨negative, mantissaBound / 2, exponent + 1, by decide⟩

def toDouble (d : Binary64) : Double :=
  if d.exponent > greatestExponent then .infinite d.negative else .finite d

def nearest (negative : Bool) (num den : Nat) : Double :=
  if num == 0 then .finite (zero negative)
  else
    let e := exponentFor num den
    let (n, d) := scale num den e
    (ofRounded negative (roundHalfEven n d) e).toDouble

def quotient (d : Binary64) : Nat × Nat :=
  if 0 ≤ d.exponent then (d.mantissa * Nat.pow 2 d.exponent.toNat, 1)
  else (d.mantissa, Nat.pow 2 (-d.exponent).toNat)

end Binary64

def greatestPlace : Int := 310

def leastPlace : Int := -330

def digitCount (n : Nat) : Nat := (Nat.toDigits 10 n).length

def Double.ofDecimal (negative : Bool) (digits : Nat) (power : Int) : Double :=
  let place : Int := digitCount digits + power
  if digits == 0 || place < leastPlace then .finite (.zero negative)
  else if place > greatestPlace then .infinite negative
  else if 0 ≤ power then Binary64.nearest negative (digits * Nat.pow 10 power.toNat) 1
  else Binary64.nearest negative digits (Nat.pow 10 (-power).toNat)

end DeclSchema.Decimal
