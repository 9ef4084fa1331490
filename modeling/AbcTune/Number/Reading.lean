import AbcTune.Text.Cut

/-! # Reading numbers

Whole numbers are ASCII digits, perhaps after a sign, and have to lie within stated bounds.
Decimal numbers have digits, a point and an exponent in the usual way; infinity and the
not-a-number are written as words.
-/
namespace AbcTune.Number

/-- The number that a run of digits writes. -/
def ofDigits (digits : Text) : Nat := digits.foldl (fun n c => n * 10 + (c.toNat - 48)) 0

/-- A non-empty run of digits. -/
def readDigits? (t : Text) : Option Nat :=
  if !t.isEmpty && t.all Char.isDigit then some (ofDigits t) else none

/-- The largest number of 32 bits, which bounds most whole numbers that are written. -/
def mostWord : Nat := 4294967295

/-- A number from 0 to `most`, perhaps after a plus sign. -/
def readNat? (most : Nat) (t : Text) : Option Nat :=
  let digits := match t with
    | '+' :: rest => rest
    | _ => t
  (readDigits? digits).filter (· ≤ most)

/-- A number from `least` to `most`, perhaps after a sign. -/
def readInt? (least most : Int) (t : Text) : Option Int :=
  let value : Option Int := match t with
    | '+' :: rest => (readDigits? rest).map Int.ofNat
    | '-' :: rest => (readDigits? rest).map fun n => -Int.ofNat n
    | _ => (readDigits? t).map Int.ofNat
  value.filter fun n => decide (least ≤ n ∧ n ≤ most)

/-- A decimal number as written. -/
inductive Numeral where
  /-- Plus or minus `digits` times ten to the power `scale`. -/
  | finite (negative : Bool) (digits : Nat) (scale : Int)
  | infinite (negative : Bool)
  | notNumber
  deriving DecidableEq, Repr

/-- The exponent that a numeral ends with; nothing at all counts as 0. -/
def readExponent? : Text → Option Int
  | [] => some 0
  | c :: rest =>
    if c = 'e' ∨ c = 'E' then
      match rest with
      | '+' :: digits => (readDigits? digits).map Int.ofNat
      | '-' :: digits => (readDigits? digits).map fun n => -Int.ofNat n
      | digits => (readDigits? digits).map Int.ofNat
    else none

/-- Digits with at most one point among them, then perhaps an exponent. -/
def readMagnitude? (negative : Bool) (t : Text) : Option Numeral :=
  let whole := t.takeWhile Char.isDigit
  let rest := t.dropWhile Char.isDigit
  let (fraction, rest) := match rest with
    | '.' :: after => (after.takeWhile Char.isDigit, after.dropWhile Char.isDigit)
    | _ => ([], rest)
  if whole.isEmpty && fraction.isEmpty then none
  else (readExponent? rest).map fun e =>
    .finite negative (ofDigits (whole ++ fraction)) (e - fraction.length)

def readUnsigned? (negative : Bool) (t : Text) : Option Numeral :=
  match String.ofList (Text.toLower t) with
  | "inf" | "infinity" => some (.infinite negative)
  | "nan" => some .notNumber
  | _ => readMagnitude? negative t

/-- Reads a decimal number that takes up the whole text. -/
def Numeral.read? : Text → Option Numeral
  | '+' :: rest => readUnsigned? false rest
  | '-' :: rest => readUnsigned? true rest
  | t => readUnsigned? false t

def digitCount (n : Nat) : Nat := (Nat.toDigits 10 n).length

/-- The nearest double; beyond the largest one infinity, and below the smallest one zero. -/
def Numeral.toFloat : Numeral → Float
  | .notNumber => 0.0 / 0.0
  | .infinite negative => if negative then -(1.0 / 0.0) else 1.0 / 0.0
  | .finite negative digits scale =>
    let size := scale + digitCount digits
    let value :=
      if digits = 0 ∨ size < -400 then 0.0
      else if size > 400 then 1.0 / 0.0
      else Float.ofScientific digits (decide (scale < 0)) scale.natAbs
    if negative then -value else value

/-- The nearest single, found in one rounding. -/
def Numeral.toFloat32 : Numeral → Float32
  | .notNumber => 0.0 / 0.0
  | .infinite negative => if negative then -(1.0 / 0.0) else 1.0 / 0.0
  | .finite negative digits scale =>
    let size := scale + digitCount digits
    let value :=
      if digits = 0 ∨ size < -400 then 0.0
      else if size > 400 then 1.0 / 0.0
      else Float32.ofScientific digits (decide (scale < 0)) scale.natAbs
    if negative then -value else value

def readFloat? (t : Text) : Option Float := (Numeral.read? t).map Numeral.toFloat

def readFloat32? (t : Text) : Option Float32 := (Numeral.read? t).map Numeral.toFloat32

end AbcTune.Number
