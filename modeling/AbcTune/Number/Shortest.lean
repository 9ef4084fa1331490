import AbcTune.Number.Binary

/-! # Shortest decimal digits

The fewest decimal digits that read back as a given binary number, and of those the nearest.
All decimals between the middles to the two neighbouring binary numbers read back; the middles
themselves do exactly when the mantissa is even. On the grid of a given number of digits only
the two neighbours of the value have to be tried.
-/
namespace AbcTune.Number

/-- The value zero point `digits` times ten to the power `point`. -/
structure Decimal where
  digits : List Char
  point : Int
  deriving DecidableEq, Repr

/-- Which of two equally near decimals is taken, given the smaller one. -/
inductive Tie where
  | even
  | up
  deriving DecidableEq, Repr

/-- A binary number and the middles to its neighbours, all over one denominator. -/
structure Surrounding where
  low : Nat
  value : Nat
  high : Nat
  den : Nat
  closed : Bool

def BinaryFormat.surrounding (f : BinaryFormat) (mantissa : Nat) (exponent : Int) : Surrounding :=
  let scaled (k : Nat) := (ratio k (exponent - 2)).1
  let gap := if mantissa = Nat.pow 2 (f.precision - 1) ∧ f.leastExponent < exponent then 1 else 2
  { low := scaled (4 * mantissa - gap)
    value := scaled (4 * mantissa)
    high := scaled (4 * mantissa + 2)
    den := (ratio 1 (exponent - 2)).2
    closed := mantissa % 2 == 0 }

/-- Whether `k` times ten to the power `place` reads back. -/
def Surrounding.holds (s : Surrounding) (place : Int) (k : Nat) : Bool :=
  let num := if 0 ≤ place then k * Nat.pow 10 place.toNat * s.den else k * s.den
  let scale := if 0 ≤ place then 1 else Nat.pow 10 (-place).toNat
  if s.closed then s.low * scale ≤ num && num ≤ s.high * scale
  else s.low * scale < num && num < s.high * scale

/-- The value in units of ten to the power `place`, as a quotient. -/
def Surrounding.inUnits (s : Surrounding) (place : Int) : Nat × Nat :=
  if 0 ≤ place then (s.value, s.den * Nat.pow 10 place.toNat)
  else (s.value * Nat.pow 10 (-place).toNat, s.den)

/-- The decimal neighbour of the value on the grid of ten to the power `place`, if one reads
back. -/
def Surrounding.onGrid (s : Surrounding) (tie : Tie) (place : Int) : Option Nat :=
  let (num, den) := s.inUnits place
  let below := num / den
  match s.holds place below, s.holds place (below + 1) with
  | false, false => none
  | true, false => some below
  | false, true => some (below + 1)
  | true, true =>
    let rest := 2 * (num % den)
    if rest < den then some below
    else if den < rest then some (below + 1)
    else match tie with
      | .even => some (if below % 2 = 0 then below else below + 1)
      | .up => some (below + 1)

/-- Number of decimal digits before the point; for a value below 1 minus the number of zeros
directly after it. -/
def Surrounding.magnitude (s : Surrounding) : Int :=
  let whole := s.value / s.den
  if 0 < whole then ((Nat.toDigits 10 whole).length : Int)
  else
    let digits := (Nat.toDigits 10 (s.den / s.value)).length
    if s.value * Nat.pow 10 digits < s.den then -(digits : Int)
    else if s.value * Nat.pow 10 (digits - 1) < s.den then 1 - (digits : Int)
    else 2 - (digits : Int)

/-- Tries grids of `count`, `count + 1`, … digits, `fuel` of them. -/
def Surrounding.search (s : Surrounding) (tie : Tie) : (fuel count : Nat) → Nat × Int
  | 0, count => (s.value / s.den, (count : Int))
  | fuel + 1, count =>
    let place := s.magnitude - count
    match s.onGrid tie place with
    | some k => (k, place)
    | none => s.search tie fuel (count + 1)

/-- A whole number times ten to the power `place`, without zeros at its end. -/
def Decimal.ofScaled (k : Nat) (place : Int) : Decimal :=
  let digits := Nat.toDigits 10 k
  { digits := (digits.reverse.dropWhile (· == '0')).reverse
    point := place + digits.length }

/-- The shortest digits of a positive binary number; seventeen are always enough. -/
def BinaryFormat.shortest (f : BinaryFormat) (tie : Tie) (mantissa : Nat) (exponent : Int) :
    Decimal :=
  let (k, place) := (f.surrounding mantissa exponent).search tie 18 1
  Decimal.ofScaled k place

end AbcTune.Number
