import AbcTune.Key
import AbcTune.Meter
import AbcTune.Tempo

/-! # What music is read against

The running context holds the settings that notes are read with. The heading of a tune holds what
its fields say of the tune as a whole.
-/
namespace AbcTune

/-- The settings in force where a note is read. -/
structure MusicContext (β : Type) where
  key : Key
  meter : Meter
  /-- The unit note length as a fraction of a whole note. -/
  unitLength : β
  /-- Whether the unit note length was stated. -/
  unitStated : Bool

namespace MusicContext

variable {β : Type} [Beats β]

def initial : MusicContext β where
  key := .cMajor
  meter := .common
  unitLength := Meter.common.defaultUnitLength
  unitStated := false

/-- Beats of a note of a given multiple of the unit length. -/
def beats (c : MusicContext β) (length : β) : β := 4.0 * c.unitLength * length

end MusicContext

/-- What the fields of a tune say about it. -/
structure Heading (β : Type) where
  reference : Option Nat
  titles : List String
  composer : Option String
  /-- Fields without a meaning for playing, by letter. -/
  others : List (Char × String)
  meter : Meter
  unitLength : β
  tempo : Tempo β
  key : Key
  lyrics : List String
  /-- The order in which the parts are played. -/
  partSequence : Option (List Char)

namespace Heading

variable {β : Type} [Beats β]

def initial (unitLength : β) : Heading β where
  reference := none
  titles := []
  composer := none
  others := []
  meter := .common
  unitLength
  tempo := .standard
  key := .cMajor
  lyrics := []
  partSequence := none

def title? (h : Heading β) : Option String := h.titles.head?

end Heading
end AbcTune
