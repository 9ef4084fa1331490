import AbcTune.Voice.Attributes

/-! # The voices of a tune

Each voice has a clock of its own. The clock of the active voice is the running cursor; those of
the others are saved in them. Leaving a voice saves the cursor and coming back restores it, so
that passages written at different places follow one another on the beat axis.
-/
namespace AbcTune

/-- The voices in the order of declaration, with the cursor of the active one. -/
structure VoiceTable (β : Type) where
  voices : List (Voice β)
  active : Option String
  cursor : β
  /-- The channel for the next voice that states none. -/
  nextChannel : Nat

/-- The voice that notes go to where none was defined. -/
def implicitVoice : String := "1"

namespace VoiceTable

variable {β : Type} [Beats β]

def empty : VoiceTable β where
  voices := []
  active := none
  cursor := 0.0
  nextChannel := 0

/-- The ids in the order of declaration. -/
def order (t : VoiceTable β) : List String := t.voices.map (·.id)

def find? (t : VoiceTable β) (id : String) : Option (Voice β) := t.voices.find? (·.id = id)

def contains (t : VoiceTable β) (id : String) : Bool := t.voices.any (·.id = id)

def modify (t : VoiceTable β) (id : String) (f : Voice β → Voice β) : VoiceTable β :=
  { t with voices := t.voices.map fun v => if v.id = id then f v else v }

def advance (t : VoiceTable β) (beats : β) : VoiceTable β := { t with cursor := t.cursor + beats }

/-- The channel that a voice without one gets, where `next` is the first one not yet given. The
percussion channel is passed over, and after the last channel comes the first again. -/
def freeChannel (next : Nat) : Nat :=
  let next := if next = percussionChannel then next + 1 else next
  if 15 < next then 0 else next

/-- Appends a new voice, on the stated channel, the percussion channel or a free one. -/
def create (t : VoiceTable β) (id : String) (a : Attributes) : VoiceTable β :=
  let add (channel next : Nat) : VoiceTable β :=
    { t with
      voices := t.voices ++ [{ Voice.new id with status := .defined, channel }]
      nextChannel := next }
  match a.channel with
  | some channel => add channel t.nextChannel
  | none =>
    if a.clef = some .percussion then add percussionChannel t.nextChannel
    else add (freeChannel t.nextChannel) (freeChannel t.nextChannel + 1)

/-- Appends a voice unless the id is taken. -/
def ensure (t : VoiceTable β) (id : String) (a : Attributes) : VoiceTable β :=
  if t.contains id then t else t.create id a

/-- Gives settings to a voice, which is created if need be. -/
def define (t : VoiceTable β) (id : String) (a : Attributes) : VoiceTable β :=
  (t.ensure id a).modify id (·.withAttributes a)

/-- Saves the cursor in the active voice and leaves it. -/
def suspend (t : VoiceTable β) : VoiceTable β :=
  match t.active with
  | some id => { t.modify id fun v => { v with savedTime := t.cursor, status := .suspended } with
      active := none }
  | none => t

/-- Takes up a voice of the table at the time saved in it. -/
def activate (t : VoiceTable β) (id : String) : VoiceTable β :=
  { t.modify id fun v => { v with status := .active } with
    active := some id
    cursor := ((t.find? id).map (·.savedTime)).getD t.cursor }

/-- Makes a voice the active one, creating it if need be; nothing changes if it is already. -/
def switchTo (t : VoiceTable β) (id : String) : VoiceTable β :=
  if t.active = some id then t else (t.suspend.ensure id .none).activate id

/-- The voice that notes go to: the active one, else the first one, else the implicit one. -/
def noteVoice (t : VoiceTable β) : String :=
  match t.active with
  | some id => id
  | none => t.order.headD implicitVoice

def ensureActive (t : VoiceTable β) : VoiceTable β := t.switchTo t.noteVoice

/-- The voice that settings without a voice go to: the active one, else the last one, else the
implicit one. -/
def settingsVoice (t : VoiceTable β) : String :=
  match t.active with
  | some id => id
  | none => t.order.getLastD implicitVoice

/-- Creates the implicit voice if settings have no other to go to. -/
def ensureSettings (t : VoiceTable β) : VoiceTable β :=
  if t.active.isSome || !t.voices.isEmpty then t else t.define implicitVoice .none

/-- The latest of the cursor and of the times saved in the other voices. -/
def latestTime (t : VoiceTable β) : β :=
  ((t.voices.filter fun v => t.active ≠ some v.id).map (·.savedTime)).foldl Beats.later t.cursor

/-- Brings every voice forward to the latest time. -/
def syncAll (t : VoiceTable β) : VoiceTable β :=
  { t with
    cursor := t.latestTime
    voices := t.voices.map fun v => { v with savedTime := t.latestTime } }

/-- The voices at the end of the music, with the time of the active one saved as well. -/
def close (t : VoiceTable β) : List (Voice β) :=
  match t.active with
  | some id => (t.modify id fun v => { v with savedTime := t.cursor }).voices
  | none => t.voices

end VoiceTable
end AbcTune
