import AbcTune.Meter

/-! # Tuplets

A group such as `(3:2:3` puts a number of notes into the time of another number, for a stated
count of notes. Groups nest, and one that is finished counts as one note of the group around it.
-/
namespace AbcTune

structure Tuplet where
  notes : Nat
  inTimeOf : Nat
  /-- Notes of the group still to come. -/
  remaining : Nat
  deriving DecidableEq, Repr

namespace Tuplet

/-- The time that a group takes where it is not written. -/
def defaultInTimeOf (notes : Nat) (meter : Meter) : Nat :=
  match notes with
  | 2 | 4 | 8 => 3
  | 3 | 6 => 2
  | _ => if meter.isCompound then 3 else 2

/-- A number that may be left out. -/
def readOptional? (absent : Nat) : Option Text → Option Nat
  | none | some [] => some absent
  | some t => Number.readNat? Number.mostWord t

/-- Reads a group such as `(3`, `(3:2` or `(5::4`. A time that is missing or zero comes from the
meter, and the count is the number of notes unless written. -/
def read? (t : Text) (meter : Meter) : Option Tuplet := do
  let parts := Text.pieces ':' (t.dropWhile (· = '('))
  let notes ← Number.readNat? Number.mostWord (parts.headD [])
  if notes = 0 then none
  let time ← readOptional? 0 parts[1]?
  let remaining ← readOptional? notes parts[2]?
  some { notes, remaining, inTimeOf := if time = 0 then defaultInTimeOf notes meter else time }

def isOpen (t : Tuplet) : Bool := decide (0 < t.remaining)

variable {β : Type} [Beats β]

/-- What the length of each note of the group is multiplied by. -/
def scale (t : Tuplet) : β := Beats.ofNat t.inTimeOf / Beats.ofNat t.notes

/-- The factor of a stack of open groups, innermost first, multiplied from the outermost. -/
def scaleAll (open_ : List Tuplet) : β := open_.foldr (fun t s => s * t.scale) (1.0 : β)

/-- Counts one note against the innermost group; a group that is finished counts as one note of
the group around it. -/
def countNote : List Tuplet → List Tuplet
  | [] => []
  | t :: outer =>
    if t.remaining ≤ 1 then countNote outer else { t with remaining := t.remaining - 1 } :: outer

end Tuplet
end AbcTune
