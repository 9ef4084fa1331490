import AbcTune.Clef
import AbcTune.Note

/-! # Voices

A voice is one independent line of notes. Its settings say how a written note sounds, and its
saved time is where its notes go on after the music has been in another voice.
-/
namespace AbcTune

inductive VoiceStatus where
  | unseen | defined | active | suspended
  deriving DecidableEq, Repr

def VoiceStatus.name : VoiceStatus → String
  | .unseen => "unseen"
  | .defined => "defined"
  | .active => "active"
  | .suspended => "suspended"

structure Voice (β : Type) where
  id : String
  name : Option String
  subname : Option String
  /-- The instrument that the voice asks for. -/
  program : Option Nat
  /-- Channels count from 0. -/
  channel : Nat
  /-- Whether the channel was stated. -/
  fixedChannel : Bool
  clef : Clef
  /-- Semitones added to every pitch. -/
  transpose : Int
  /-- Octaves added to every pitch. -/
  octave : Int
  muted : Bool
  volume : Float32
  savedTime : β
  status : VoiceStatus
  /-- Notes in the order of writing. -/
  notes : List (Note β)

def percussionChannel : Nat := 9

namespace Voice

variable {β : Type} [Beats β]

def new (id : String) : Voice β where
  id
  name := none
  subname := none
  program := none
  channel := 0
  fixedChannel := false
  clef := .treble
  transpose := 0
  octave := 0
  muted := false
  volume := 1.0
  savedTime := 0.0
  status := .unseen
  notes := []

/-- The pitch that a written one sounds at, within range. -/
def soundingPitch (v : Voice β) (written : Int) : Nat :=
  clampMidi (written + v.transpose + v.octave * 12)

/-- A velocity at the volume of the voice; muted voices have none. -/
def scaleVelocity (v : Voice β) (velocity : Nat) : Nat :=
  if v.muted then 0 else scaledVelocity velocity v.volume

def addNote (v : Voice β) (n : Note β) : Voice β := { v with notes := v.notes ++ [n] }

end Voice
end AbcTune
