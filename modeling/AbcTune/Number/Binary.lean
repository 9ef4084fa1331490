/-! # Binary numbers

A floating-point number is read off its bits as a sign, a whole mantissa and a power of two.
The rounding of such a value to a whole number is exact.
-/
namespace AbcTune.Number

/-- How the bits of a binary number are divided. -/
structure BinaryFormat where
  /-- Bits of the mantissa, the leading one included. -/
  precision : Nat
  /-- Bits of the exponent. -/
  width : Nat

def double : BinaryFormat := ⟨53, 11⟩

def single : BinaryFormat := ⟨24, 8⟩

/-- The exponent of the last bit of the smallest numbers. -/
def BinaryFormat.leastExponent (f : BinaryFormat) : Int :=
  3 - (Nat.pow 2 (f.width - 1) : Int) - f.precision

/-- A floating-point number as an exact value. -/
inductive Binary where
  /-- Plus or minus `mantissa` times two to the power `exponent`. -/
  | finite (negative : Bool) (mantissa : Nat) (exponent : Int)
  | infinite (negative : Bool)
  | notNumber
  deriving DecidableEq, Repr

/-- The value that a pattern of bits stands for. -/
def BinaryFormat.decode (f : BinaryFormat) (bits : Nat) : Binary :=
  let leading := Nat.pow 2 (f.precision - 1)
  let exponents := Nat.pow 2 f.width
  let fraction := bits % leading
  let exponent := bits / leading % exponents
  let negative := bits / (leading * exponents) % 2 == 1
  if exponent = exponents - 1 then
    if fraction = 0 then .infinite negative else .notNumber
  else if exponent = 0 then .finite negative fraction f.leastExponent
  else .finite negative (leading + fraction) (f.leastExponent + exponent - 1)

def Binary.ofFloat (x : Float) : Binary := double.decode x.toBits.toNat

def Binary.ofFloat32 (x : Float32) : Binary := single.decode x.toBits.toNat

/-- A mantissa and a power of two as a quotient. -/
def ratio (mantissa : Nat) (exponent : Int) : Nat × Nat :=
  if 0 ≤ exponent then (mantissa * Nat.pow 2 exponent.toNat, 1)
  else (mantissa, Nat.pow 2 (-exponent).toNat)

/-- The whole number nearest to a quotient; of two the even one. -/
def roundEven (num den : Nat) : Nat :=
  let low := num / den
  let rest := 2 * (num % den)
  if rest < den ∨ (rest = den ∧ low % 2 = 0) then low else low + 1

/-- The whole number nearest to a quotient; of two the greater one. -/
def roundUp (num den : Nat) : Nat := (2 * num + den) / (2 * den)

end AbcTune.Number
