import AbcTune.Beat
import AbcTune.Number.Reading

/-! # Meters

A meter is written as a fraction, with a sum allowed above the line, or by one of the signs for
common and cut time. Free meter has no bars to count but keeps the values of common time.
-/
namespace AbcTune

structure Meter where
  beats : Nat
  beatType : Nat
  free : Bool
  deriving DecidableEq, Repr

namespace Meter

def common : Meter := ⟨4, 4, false⟩

def cut : Meter := ⟨2, 2, false⟩

instance : Inhabited Meter := ⟨common⟩

/-- The largest number that may stand above or below the line. -/
def most : Nat := 255

/-- The sum of the numbers between plus signs. -/
def readSum? (t : Text) : Option Nat :=
  ((Text.pieces '+' t).mapM fun p => Number.readNat? Number.mostWord (Text.trim p)).map
    (·.foldl (· + ·) 0)

def isBracket (c : Char) : Bool := c = '(' || c = ')'

def unbracket (t : Text) : Text :=
  ((t.dropWhile isBracket).reverse.dropWhile isBracket).reverse

/-- Reads a meter such as `6/8`, `C`, `C|`, `2+3/8` or `none`. -/
def read? (t : Text) : Option Meter :=
  let t := Text.trim t
  match String.ofList t with
  | "C" => some common
  | "C|" => some cut
  | "none" | "" => some { common with free := true }
  | _ => do
    let (above, below) ← Text.cutAt '/' t
    let beats ← readSum? (unbracket above)
    let beatType ← Number.readNat? most (Text.trim below)
    if beats = 0 ∨ most < beats ∨ beatType = 0 then none else some ⟨beats, beatType, false⟩

variable {β : Type} [Beats β]

/-- The meter as a fraction of a whole note. -/
def value (m : Meter) : β := Beats.ofNat m.beats / Beats.ofNat m.beatType

/-- Compound meters count beats in threes of eighth notes. -/
def isCompound (m : Meter) : Bool :=
  !m.free && decide (3 < m.beats) && m.beats % 3 == 0 && m.beatType == 8

/-- Length of a bar in beats. -/
def barBeats (m : Meter) : β := m.value * 4.0

/-- The counted beat as a fraction of a whole note. -/
def beatUnit (m : Meter) : β :=
  if m.isCompound then 3.0 / Beats.ofNat m.beatType else 1.0 / Beats.ofNat m.beatType

def defaultUnitLength (m : Meter) : β :=
  if !m.free && decide ((m.value : β) < 0.75) then 1.0 / 16.0 else 1.0 / 8.0

end Meter
end AbcTune
