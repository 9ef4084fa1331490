import AbcTune.Context
import AbcTune.Diagnostic
import AbcTune.Fault
import AbcTune.Tuplet
import AbcTune.Voice.Table

/-! # The state of reading music

Tuplets, grace groups and chords belong to the line under way. What lasts across lines is kept
for each voice: accidentals of the bar, dynamics, open spans, ties and grace notes that wait for
their principal.
-/
namespace AbcTune

/-- A grace note that waits for its principal. -/
structure Grace (β : Type) where
  /-- The written pitch. -/
  written : Int
  beats : β

/-- What is remembered of a voice between its notes. -/
structure VoiceMemory (β : Type) where
  /-- Accidentals written since the last bar line, by letter and octave, the latest first. -/
  accidentals : List ((Letter × Int) × Accidental)
  velocity : Int
  /-- Decorations that last until they are closed. -/
  spans : List Decoration
  graces : List (Grace β)
  /-- Places of the notes of the last note or chord among the notes of the voice. -/
  lastGroup : List Nat
  /-- Beats that the last note, chord or rest took. -/
  lastAdvance : β
  /-- Places of the notes that a tie goes on from. -/
  tiedFrom : List Nat
  /-- What broken rhythm multiplies the next note by. -/
  brokenNext : Option β

structure OpenChord (β : Type) where
  start : β
  /-- Places of its notes. -/
  notes : List Nat
  /-- Beats of its first note, which count for the chord. -/
  firstAdvance : Option β
  /-- The factor of broken rhythm and tuplets. -/
  factor : β
  decorations : List Decoration
  graces : List (Grace β)

structure MusicState (β : Type) where
  voices : VoiceTable β
  memories : List (String × VoiceMemory β)
  /-- Open tuplets, innermost first. -/
  tuplets : List Tuplet
  graceGroup : Option (List (Grace β))
  chord : Option (OpenChord β)
  /-- Decorations for the next note. -/
  decorations : List Decoration
  part : Option Char

variable {β : Type} [Beats β]

def VoiceMemory.initial : VoiceMemory β where
  accidentals := []
  velocity := defaultVelocity
  spans := []
  graces := []
  lastGroup := []
  lastAdvance := 0.0
  tiedFrom := []
  brokenNext := none

namespace MusicState

def initial : MusicState β where
  voices := .empty
  memories := []
  tuplets := []
  graceGroup := none
  chord := none
  decorations := []
  part := none

/-- What is remembered of a voice, at first nothing. -/
def memory (s : MusicState β) (id : String) : VoiceMemory β := (s.memories.lookup id).getD .initial

def setMemory (s : MusicState β) (id : String) (m : VoiceMemory β) : MusicState β :=
  { s with memories := (id, m) :: s.memories.filter (·.1 != id) }

@[simp] theorem memory_setMemory (s : MusicState β) (id : String) (m : VoiceMemory β) :
    (s.setMemory id m).memory id = m := by simp [memory, setMemory]

def mapMemory (s : MusicState β) (id : String) (f : VoiceMemory β → VoiceMemory β) :
    MusicState β := s.setMemory id (f (s.memory id))

def setVoice (s : MusicState β) (v : Voice β) : MusicState β :=
  { s with voices := s.voices.modify v.id fun _ => v }

/-- Moves the cursor over a note, chord or rest, which counts for the open tuplets. -/
def step (s : MusicState β) (beats : β) : MusicState β :=
  { s with voices := s.voices.advance beats, tuplets := Tuplet.countNote s.tuplets }

/-- What becomes of a token: the state after it, with what is wrong with it if anything is. -/
abbrev Handled (β : Type) := MusicState β × Option MusicProblem

def accept (s : MusicState β) : Except Fault (Handled β) := .ok (s, none)

def reject (s : MusicState β) (p : MusicProblem) : Except Fault (Handled β) := .ok (s, some p)

def startPart (s : MusicState β) (label : Char) : MusicState β := { s with part := some label }

end MusicState
end AbcTune
