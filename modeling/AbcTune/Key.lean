import AbcTune.Pitch
import AbcTune.Text.Cut

/-! # Keys

A key is a tonic with a mode. What it does to unmarked notes depends only on its place on the
circle of fifths: sharps are added from F in fifths upward, flats from B in fifths downward.
-/
namespace AbcTune

inductive Mode where
  | major | minor | dorian | phrygian | lydian | mixolydian | locrian
  deriving DecidableEq, Repr

namespace Mode

/-- Steps on the circle of fifths from the major key on the same tonic. -/
def fifths : Mode → Int
  | .major => 0
  | .lydian => 1
  | .mixolydian => -1
  | .dorian => -2
  | .minor => -3
  | .phrygian => -4
  | .locrian => -5

def name : Mode → String
  | .major => "major"
  | .minor => "minor"
  | .dorian => "dorian"
  | .phrygian => "phrygian"
  | .lydian => "lydian"
  | .mixolydian => "mixolydian"
  | .locrian => "locrian"

/-- Reads a mode by its first three letters; nothing means major, and `m` minor. -/
def read? (t : Text) : Option Mode :=
  match String.ofList ((Text.toLower t).take 3) with
  | "" => some .major
  | "m" => some .minor
  | "maj" | "ion" => some .major
  | "min" | "aeo" => some .minor
  | "dor" => some .dorian
  | "phr" => some .phrygian
  | "lyd" => some .lydian
  | "mix" => some .mixolydian
  | "loc" => some .locrian
  | _ => none

end Mode

/-- A key signature: sharps count upward from 0 and flats downward. -/
structure Key where
  fifths : Int
  mode : Mode
  deriving DecidableEq, Repr

/-- Steps on the circle of fifths from C major to the major key on a natural tonic. -/
def Letter.fifths : Letter → Int
  | .C => 0
  | .G => 1
  | .D => 2
  | .A => 3
  | .E => 4
  | .B => 5
  | .F => -1

namespace Key

def cMajor : Key := ⟨0, .major⟩

instance : Inhabited Key := ⟨cMajor⟩

def sharpOrder : List Letter := [.F, .C, .G, .D, .A, .E, .B]

def flatOrder : List Letter := [.B, .E, .A, .D, .G, .C, .F]

/-- A sharp or flat after the tonic, as steps on the circle of fifths, and what follows. -/
def takeAlteration : Text → Int × Text
  | '#' :: rest => (7, rest)
  | 'b' :: rest => (-7, rest)
  | t => (0, t)

/-- Reads a key with blanks removed: a capital tonic, an alteration and a mode. -/
def readCompact? : Text → Option Key
  | [] => none
  | c :: rest =>
    if c.isUpper then do
      let tonic ← Letter.ofChar? c
      let (alteration, modeText) := takeAlteration rest
      let mode ← Mode.read? modeText
      let fifths := tonic.fifths + alteration + mode.fifths
      if -7 ≤ fifths ∧ fifths ≤ 7 then some ⟨fifths, mode⟩ else none
    else none

/-- Reads a key such as `G`, `Dm`, `F# minor`, `Bbmix` or `none`; `HP` and `Hp` are the keys of
the Highland pipes, without and with a signature. -/
def read? (t : Text) : Option Key :=
  let compact := t.filter (!Text.isBlank ·)
  match String.ofList compact with
  | "" | "none" | "HP" => some cMajor
  | "Hp" => some ⟨2, .mixolydian⟩
  | _ => readCompact? compact

/-- The accidental that the key gives to an unmarked note. -/
def accidental? (k : Key) (l : Letter) : Option Accidental :=
  if 0 < k.fifths ∧ l ∈ sharpOrder.take k.fifths.toNat then some .sharp
  else if k.fifths < 0 ∧ l ∈ flatOrder.take (-k.fifths).toNat then some .flat
  else none

end Key
end AbcTune
