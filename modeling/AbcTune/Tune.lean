import AbcTune.Context
import AbcTune.Diagnostic
import AbcTune.Voice

/-! # Tunes

A tune holds what its heading says, its voices with their notes, and the notes of all voices
merged in the order of playing. It is complete, and may be played, if no problem was found.
-/
namespace AbcTune

structure Tune (β : Type) where
  heading : Heading β
  voices : List (Voice β)
  /-- Ids of the voices in the order of declaration. -/
  voiceOrder : List String
  /-- The notes of all voices, by start. -/
  events : List (Note β)
  /-- Written length in beats, rests at the end included. -/
  length : β
  diagnostics : List Diagnostic

namespace Tune

variable {β : Type} [Beats β]

def empty (heading : Heading β) : Tune β where
  heading
  voices := []
  voiceOrder := []
  events := []
  length := 0.0
  diagnostics := []

def title? (t : Tune β) : Option String := t.heading.title?

/-- The first title, or a stand-in. -/
def displayTitle (t : Tune β) : String := t.title?.getD "Untitled"

def isComplete (t : Tune β) : Bool := t.diagnostics.isEmpty

def voice? (t : Tune β) (id : String) : Option (Voice β) := t.voices.find? (·.id = id)

def orderedVoices (t : Tune β) : List (Voice β) := t.voiceOrder.filterMap t.voice?

/-- Length in beats: the written length, or the end of the last sounding note if that is later. -/
def durationBeats (t : Tune β) : β := (t.events.map Note.stop).foldl Beats.later t.length

end Tune
end AbcTune
