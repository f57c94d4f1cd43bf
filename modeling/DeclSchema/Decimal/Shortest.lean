import DeclSchema.Decimal.Binary64

/-! # Shortest decimal text of a double

`shortest` finds the fewest decimal digits that read back as the same double, and of
those the ones nearest to its value. A `Layout` says how digits are set into text:
which magnitudes are written out by position, and what a whole number ends with.
-/
namespace DeclSchema.Decimal

structure Digits where
  digits : Nat
  power : Int
deriving Repr, DecidableEq

namespace Binary64

/-- The numbers that round to a double, as multiples of a quarter of its last place:
the lower end, the value, the upper end. -/
def quarters (d : Binary64) : Nat × Nat × Nat :=
  let m := d.mantissa
  let below := if m == Nat.pow 2 52 && d.exponent > leastExponent then 1 else 2
  (4 * m - below, 4 * m, 4 * m + 2)

def quarterUnit (d : Binary64) (power : Int) : Nat × Nat :=
  let e := d.exponent - 2
  (Nat.pow 2 e.toNat * Nat.pow 10 (-power).toNat,
    Nat.pow 2 (-e).toNat * Nat.pow 10 power.toNat)

def leadingPlace (d : Binary64) : Int :=
  let (n, k) := d.quotient
  if n ≥ k then digitCount (n / k) - 1
  else
    let count := digitCount (k / n)
    if n * Nat.pow 10 (count - 1) ≥ k then -((count : Int) - 1) else -(count : Int)

/-- The best number with last place `10 ^ power` among those that round to `d`. -/
def onGrid? (d : Binary64) (power : Int) : Option Nat :=
  let (low, value, high) := d.quarters
  let (n, k) := d.quarterUnit power
  let inside (c : Nat) : Bool :=
    if d.mantissa % 2 == 0 then low * n ≤ c * k && c * k ≤ high * n
    else low * n < c * k && c * k < high * n
  let floor := value * n / k
  let toFloor := value * n - floor * k
  let toCeil := (floor + 1) * k - value * n
  match inside floor, inside (floor + 1) with
  | true, true =>
    if toFloor < toCeil || (toFloor == toCeil && floor % 2 == 0) then some floor
    else some (floor + 1)
  | true, false => some floor
  | false, true => some (floor + 1)
  | false, false => none

def firstGrid (d : Binary64) : Nat → Int → Digits
  | 0, power => ⟨(d.onGrid? power).getD 0, power⟩
  | count + 1, power =>
    match d.onGrid? power with
    | some c => ⟨c, power⟩
    | none => firstGrid d count (power - 1)

end Binary64

def Digits.strip : Nat → Digits → Digits
  | 0, d => d
  | limit + 1, d =>
    if d.digits != 0 && d.digits % 10 == 0 then strip limit ⟨d.digits / 10, d.power + 1⟩ else d

/-- The shortest digits of a positive double. Seventeen digits always suffice. -/
def Binary64.shortest (d : Binary64) : Digits :=
  (d.firstGrid 18 d.leadingPlace).strip 20

/-- How a number is set into text. With the point after `p` of its digits (negative: after
zeros that precede them) a number is written by position if `least ≤ p ≤ greatest`, else
with an exponent. -/
structure Layout where
  least : Int
  greatest : Int
  /-- What ends a number that has no digits after the point. -/
  whole : String
deriving Repr, DecidableEq

def Layout.interchange : Layout := ⟨-4, 16, ".0"⟩

def Layout.plain : Layout := ⟨-2000, 2000, ""⟩

def zeros (n : Nat) : List Char := List.replicate n '0'

def Layout.positional (layout : Layout) (digits : List Char) (point : Int) : List Char :=
  if point ≤ 0 then '0' :: '.' :: (zeros (-point).toNat ++ digits)
  else if digits.length ≤ point.toNat then
    digits ++ zeros (point.toNat - digits.length) ++ layout.whole.toList
  else digits.take point.toNat ++ '.' :: digits.drop point.toNat

def scientific (digits : List Char) (point : Int) : List Char :=
  let mantissa :=
    match digits with
    | [] => ['0']
    | [c] => [c]
    | c :: rest => c :: '.' :: rest
  let e := point - 1
  let sign := if e < 0 then '-' else '+'
  mantissa ++ 'e' :: sign :: Nat.toDigits 10 e.natAbs

def Binary64.write (layout : Layout) (d : Binary64) : String :=
  let sign := if d.negative then ['-'] else []
  let body :=
    if d.isZero then '0' :: layout.whole.toList
    else
      let short := d.shortest
      let digits := Nat.toDigits 10 short.digits
      let point : Int := digits.length + short.power
      if layout.least ≤ point && point ≤ layout.greatest then layout.positional digits point
      else scientific digits point
  String.ofList (sign ++ body)

end DeclSchema.Decimal
