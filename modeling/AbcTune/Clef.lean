import AbcTune.Text.Cut

/-! # Clefs

Only the percussion clef changes what is played.
-/
namespace AbcTune

inductive Clef where
  | treble | bass | alto | tenor | percussion | none
  deriving DecidableEq, Repr

namespace Clef

/-- Reads a clef by its leading ASCII letters, so that `bass3` and `treble-8` are clefs. -/
def read? (t : Text) : Option Clef :=
  match String.ofList (Text.toLower ((Text.trim t).takeWhile Char.isAlpha)) with
  | "treble" | "g" => some .treble
  | "bass" | "f" => some .bass
  | "alto" => some .alto
  | "tenor" => some .tenor
  | "perc" | "percussion" | "drum" => some .percussion
  | "none" => some .none
  | _ => Option.none

def name : Clef → String
  | .treble => "treble"
  | .bass => "bass"
  | .alto => "alto"
  | .tenor => "tenor"
  | .percussion => "percussion"
  | .none => "none"

end Clef
end AbcTune
