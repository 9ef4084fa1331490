import AbcTune.Number.Reading
import AbcTune.Yaml.Token.Flow

/-! # YAML scalars

What a plain scalar means: nothing, a truth value, a number or text.
-/
namespace AbcTune.Yaml

structure Scalar where
  style : Style
  tag : Option Text
  text : Text
  deriving DecidableEq, Repr

/-- The stem of the tags of the language itself. -/
def coreStem : Text := "tag:yaml.org,2002:".toList

def coreTag (name : String) : Text := coreStem ++ name.toList

def isNullWord (t : Text) : Bool := ["null", "Null", "NULL", "~"].contains (String.ofList t)

def isTruthWord (t : Text) : Bool :=
  ["true", "True", "TRUE", "false", "False", "FALSE"].contains (String.ofList t)

/-- Digits after a zero, which make text rather than a number. -/
def isZeroPadded (t : Text) : Bool :=
  let digits := match t with
    | '-' :: rest | '+' :: rest => rest
    | _ => t
  match digits with
  | '0' :: d :: rest => (d :: rest).all Char.isDigit
  | _ => false

def readRadix? (radix : Nat) (t : Text) : Option Nat :=
  if t.isEmpty then none
  else (t.mapM (digitValue? radix)).map (·.foldl (fun n d => n * radix + d) 0)

/-- A number without a minus sign; a radix may be given by a letter after a zero. -/
def readUnsigned? (t : Text) : Option Nat :=
  let t := match t with
    | '+' :: rest => rest
    | _ => t
  match t with
  | '0' :: 'x' :: digits => readRadix? 16 digits
  | '0' :: 'o' :: digits => readRadix? 8 digits
  | '0' :: 'b' :: digits => readRadix? 2 digits
  | _ => if isZeroPadded t then none else readRadix? 10 t

/-- A whole number that fits in a number of bits. -/
def readNat? (bits : Nat) (t : Text) : Option Nat :=
  (readUnsigned? t).filter fun n => n < Nat.pow 2 bits

def isNegativeInt (t : Text) : Bool :=
  match t with
  | '-' :: rest => rest.head? != some '+' && (readUnsigned? rest).any fun n => n ≤ Nat.pow 2 127
  | _ => false

def isFinite (x : Float) : Bool := !x.isNaN && !x.isInf

/-- A decimal number, an infinity, or the not-a-number. -/
def readFloat? (t : Text) : Option Float :=
  match String.ofList t with
  | ".inf" | ".Inf" | ".INF" | "+.inf" | "+.Inf" | "+.INF" => some (1.0 / 0.0)
  | "-.inf" | "-.Inf" | "-.INF" => some (-(1.0 / 0.0))
  | ".nan" | ".NaN" | ".NAN" => some (0.0 / 0.0)
  | _ => (Number.readFloat? t).filter isFinite

namespace Scalar

/-- The plain scalar without text, which stands where nothing is written. -/
def empty (tag : Option Text) : Scalar := ⟨.plain, tag, []⟩

/-- Whether the scalar stands where nothing is written. -/
def isEmpty (s : Scalar) : Bool := s.style = .plain && s.text.isEmpty

/-- Whether the scalar stands for a value, or for none. It is neither if its tag says that it
stands for none and its text does not. -/
def isGiven? (s : Scalar) : Option Bool :=
  if s.style ≠ .plain then some true
  else
    match s.tag with
    | none => some (!s.text.isEmpty && !isNullWord s.text)
    | some tag =>
      if tag ≠ coreTag "null" then some true
      else if isNullWord s.text then some false else none

/-- Whether the text may be read as something of a kind. Text in lines of its own may if its tag
names the kind. -/
def isOfKind (kind : String) (s : Scalar) : Bool :=
  s.style = .plain || (s.style = .literal && s.tag = some (coreTag kind))

end Scalar
end AbcTune.Yaml
