import AbcTune.Number.Binary

/-! # The beat axis

Positions and lengths are counted in beats, quarter notes, from the start of a tune. They are
doubles when a tune is read and played; everything that is computed with them is stated for any
type with this arithmetic, among which the rational numbers have no rounding.
-/
namespace AbcTune

/-- Arithmetic of positions and lengths on the beat axis. -/
class Beats (β : Type) extends Add β, Sub β, Mul β, Div β, OfScientific β, LT β, LE β where
  decLt : DecidableLT β
  decLe : DecidableLE β
  ofNat : Nat → β
  /-- The position that none lies after, where there is one. -/
  latest : Option β
  /-- The total order that notes are sorted by. -/
  sortsBefore : β → β → Bool

attribute [reducible, instance] Beats.decLt Beats.decLe

namespace Beats

variable {β : Type} [Beats β]

/-- The later of two positions; one that cannot be compared is passed over. -/
def later (a b : β) : β := if a < b then b else if a ≤ a then a else b

/-- The earlier of two positions; one that cannot be compared is passed over. -/
def earlier (a b : β) : β := if b < a then b else if a ≤ a then a else b

def sum (xs : List β) : β := xs.foldl (· + ·) (0.0 : β)

end Beats

/-- Doubles in order: by their bits, negative ones from the largest magnitude down, and ahead of
all of them what is no number. -/
def floatKey (x : Float) : Int :=
  let bits := x.toBits.toNat
  let signBit := Nat.pow 2 63
  if x.isNaN then -2 * (signBit : Int)
  else if bits < signBit then bits else (signBit : Int) - 1 - bits

instance : Beats Float where
  decLt := Float.decLt
  decLe := Float.decLe
  ofNat n := Float.ofScientific n false 0
  latest := some (1.0 / 0.0)
  sortsBefore a b := floatKey a ≤ floatKey b

instance : Beats Rat where
  decLt := inferInstance
  decLe := inferInstance
  ofNat n := n
  latest := none
  sortsBefore a b := a ≤ b

end AbcTune
