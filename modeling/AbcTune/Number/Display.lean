import AbcTune.Number.Shortest

/-! # Writing numbers

Three forms are used: plain decimals without an exponent, decimals with two places, and the
form of a data sheet, where a whole number keeps a zero after the point and very large and very
small ones get an exponent.
-/
namespace AbcTune.Number

def zeros (n : Nat) : List Char := List.replicate n '0'

/-- A decimal written out, with no point in a whole number. -/
def Decimal.plain (d : Decimal) : List Char :=
  if d.point ≤ 0 then '0' :: '.' :: (zeros (-d.point).toNat ++ d.digits)
  else
    let n := d.point.toNat
    if d.digits.length ≤ n then d.digits ++ zeros (n - d.digits.length)
    else d.digits.take n ++ '.' :: d.digits.drop n

/-- How numbers that are not finite are spelt. -/
structure Spelling where
  infinity : String
  notNumber : String

def signed (negative : Bool) (s : String) : String := if negative then "-" ++ s else s

/-- Writes a binary number with the given form for the digits of a positive one. -/
def Binary.write (spelling : Spelling) (zero : String) (form : Nat → Int → String) :
    Binary → String
  | .notNumber => spelling.notNumber
  | .infinite negative => signed negative spelling.infinity
  | .finite negative mantissa exponent =>
    signed negative (if mantissa = 0 then zero else form mantissa exponent)

/-- Plain text spells infinity `inf` and the not-a-number `NaN`. -/
def words : Spelling := ⟨"inf", "NaN"⟩

/-- The shortest plain decimal that reads back as the same double. -/
def plain (x : Float) : String :=
  (Binary.ofFloat x).write words "0" fun m e => String.ofList (double.shortest .up m e).plain

/-- The shortest plain decimal that reads back as the same single. -/
def plainSingle (x : Float32) : String :=
  (Binary.ofFloat32 x).write words "0" fun m e => String.ofList (single.shortest .up m e).plain

/-- Hundredths with two digits after the point. -/
def hundredths (n : Nat) : String :=
  let rest := n % 100
  toString (n / 100) ++ "." ++ (if rest < 10 then "0" else "") ++ toString rest

/-- Two places, rounded from the exact value, a half to the even neighbour. -/
def Binary.twoPlaces (b : Binary) : String :=
  b.write words "0.00" fun m e =>
    let (num, den) := ratio m e
    hundredths (roundEven (num * 100) den)

def twoPlaces (x : Float) : String := (Binary.ofFloat x).twoPlaces

def twoPlacesSingle (x : Float32) : String := (Binary.ofFloat32 x).twoPlaces

/-- A decimal in a data sheet: written out while its point lies in the sixteen places before or
the five places after the first digit, and with an exponent beyond. -/
def Decimal.sheet (d : Decimal) : String :=
  let exponent := "e" ++ toString (d.point - 1)
  if 0 < d.point ∧ d.point ≤ 16 then
    String.ofList d.plain ++ (if (d.digits.length : Int) ≤ d.point then ".0" else "")
  else if -5 < d.point ∧ d.point ≤ 0 then String.ofList d.plain
  else match d.digits with
    | [c] => String.ofList [c] ++ exponent
    | c :: rest => String.ofList (c :: '.' :: rest) ++ exponent
    | [] => exponent

/-- The form of a double in a data sheet. -/
def sheet (x : Float) : String :=
  (Binary.ofFloat x).write ⟨".inf", ".nan"⟩ "0.0" fun m e => (double.shortest .even m e).sheet

def hexDigits (digits n : Nat) : List Char :=
  let ds := Nat.toDigits 16 n
  zeros (digits - ds.length) ++ ds

end AbcTune.Number
