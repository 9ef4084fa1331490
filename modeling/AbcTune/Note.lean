import AbcTune.Decoration
import AbcTune.Key
import AbcTune.Length

/-! # Notes

A note is first read as it is written, with its own accidental, octave marks and length, and then
placed on the beat axis as a sounding pitch with a velocity and a channel.
-/
namespace AbcTune

/-- A note as it is written. -/
structure WrittenNote (β : Type) where
  accidental : Option Accidental
  letter : Letter
  /-- Octaves above the one that starts at middle C. -/
  octave : Int
  /-- Multiple of the unit note length. -/
  length : β

namespace WrittenNote

def isOctaveMark (c : Char) : Bool := c = '\'' || c = ','

/-- Octaves up for each apostrophe, and down for each comma. -/
def octaveShift (marks : Text) : Int := marks.count '\'' - marks.count ','

/-- Reads an accidental, a letter, octave marks and a length. -/
def read? {β : Type} [Beats β] (t : Text) : Option (WrittenNote β) :=
  match Accidental.take t with
  | (_, []) => none
  | (accidental, c :: rest) => do
    let letter ← Letter.ofChar? c
    let length ← readLength? (rest.dropWhile isOctaveMark)
    some {
      accidental, letter, length
      octave := (if c.isLower then 1 else 0) + octaveShift (rest.takeWhile isOctaveMark) }

theorem read?_pos {β : Type} [Beats β] {t : Text} {w : WrittenNote β} (h : read? t = some w) :
    (0.0 : β) < w.length := by
  unfold read? at h
  split at h
  · cases h
  · simp only [Option.bind_eq_bind, Option.bind_eq_some_iff] at h
    obtain ⟨letter,-,length,hlength,hw⟩ := h
    rw [← Option.some.inj hw]
    exact readLength?_pos hlength

/-- The pitch of a note that is moved by `accidental?`, in semitones; middle C is 60. -/
def pitch {β : Type} (w : WrittenNote β) (accidental? : Option Accidental) : Int :=
  60 + w.octave * 12 + w.letter.semitone + (accidental?.map Accidental.semitones).getD 0

end WrittenNote

def defaultVelocity : Int := 80

/-- A note at its time, as it is played. -/
structure Note (β : Type) where
  pitch : Nat
  velocity : Nat
  /-- Beats from the start of the tune. -/
  start : β
  /-- Beats that it sounds for. -/
  duration : β
  channel : Nat
  voice : String
  decorations : List Decoration
  grace : Bool
  /-- The part of the tune that it was written in. -/
  part : Option Char

def Note.stop {β : Type} [Beats β] (n : Note β) : β := n.start + n.duration

def clamp (least most n : Int) : Int := max least (min most n)

/-- Limits a number to the range of pitches and velocities. -/
def clampMidi (n : Int) : Nat := (clamp 0 127 n).toNat

/-- A velocity scaled by a volume: rounded to nearest, a half upward, and kept within range. -/
def scaledVelocity (velocity : Nat) (volume : Float32) : Nat :=
  match Number.Binary.ofFloat32 (Float32.ofNat velocity * volume) with
  | .notNumber => 0
  | .infinite negative => if negative then 0 else 127
  | .finite true _ _ => 0
  | .finite false mantissa exponent =>
    let (num, den) := Number.ratio mantissa exponent
    min 127 (Number.roundUp num den)

end AbcTune
