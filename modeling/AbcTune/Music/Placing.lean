import AbcTune.Music.State

/-! # Placing notes

A written note is placed on its voice with its accidental, its dynamics and its ties. Grace notes
are placed before their principal and take their time from it.
-/
namespace AbcTune

variable {β : Type} [Beats β]

/-- Finds the accidental of a note: its own, else the one written last in the bar for the same
letter and octave, else that of the key. Its own is remembered. -/
def VoiceMemory.resolve (m : VoiceMemory β) (w : WrittenNote β) (key : Key) :
    VoiceMemory β × Int :=
  match w.accidental with
  | some a =>
    ({ m with accidentals := ((w.letter, w.octave), a) :: m.accidentals }, w.pitch (some a))
  | none =>
    (m, w.pitch (m.accidentals.lookup (w.letter, w.octave) <|> key.accidental? w.letter))

/-- Keeps a velocity audible and within range. -/
def clampVelocity (n : Int) : Int := clamp 1 127 n

/-- What decorations do to a note. -/
structure Shading where
  velocity : Int
  /-- The velocity for the notes that follow. -/
  lasting : Int
  accent : Int
  staccato : Bool

def Shading.apply (s : Shading) (d : Decoration) : Shading :=
  match d.kind with
  | .dynamic => { s with velocity := d.intensity, lasting := clampVelocity d.intensity }
  | .accent => { s with accent := s.accent + d.intensity }
  | .crescendo | .diminuendo =>
    let velocity := clampVelocity (s.velocity + d.intensity)
    { s with velocity, lasting := velocity }
  | .staccato => { s with staccato := true }
  | _ => s

/-- What decorations make of a note, where notes have had `velocity` so far. -/
def Shading.ofDecorations (velocity : Int) (ds : List Decoration) : Shading :=
  ds.foldl Shading.apply ⟨velocity, velocity, 0, false⟩

namespace Voice

/-- The first of the given notes that sounds at a pitch. -/
def tiedNote (v : Voice β) (pitch : Nat) : List Nat → Except Fault (Option Nat)
  | [] => .ok none
  | i :: rest =>
    match v.notes[i]? with
    | none => .error (.missingNote i)
    | some n => if n.pitch = pitch then .ok (some i) else v.tiedNote pitch rest

def modifyNote (v : Voice β) (f : Note β → Note β) (i : Nat) : Except Fault (Voice β) :=
  match v.notes[i]? with
  | none => .error (.missingNote i)
  | some n => .ok { v with notes := v.notes.set i (f n) }

def modifyNotes (v : Voice β) (f : Note β → Note β) : List Nat → Except Fault (Voice β)
  | [] => .ok v
  | i :: rest =>
    match v.modifyNote f i with
    | .error e => .error e
    | .ok v => v.modifyNotes f rest

end Voice

/-- A note ready for its voice. -/
structure Placement (β : Type) where
  written : Int
  start : β
  /-- Beats that it takes. -/
  advance : β
  decorations : List Decoration

/-- Places a note: the voice and its memory after it, and its place among the notes. A tied note
goes on to the end of this one and keeps its place. -/
def place (v : Voice β) (m : VoiceMemory β) (p : Placement β) (part : Option Char) :
    Except Fault (Voice β × VoiceMemory β × Nat) := do
  let decorations := p.decorations ++ m.spans
  let shading := Shading.ofDecorations m.velocity decorations
  let m := { m with velocity := shading.lasting }
  let duration := if shading.staccato then p.advance / 2.0 else p.advance
  let pitch := v.soundingPitch p.written
  match ← v.tiedNote pitch m.tiedFrom with
  | some i =>
    let v ← v.modifyNote (fun n => { n with duration := p.start + duration - n.start }) i
    .ok (v, m, i)
  | none =>
    let note : Note β :=
      { pitch
        velocity := v.scaleVelocity (clampVelocity (shading.velocity + shading.accent)).toNat
        start := p.start
        duration
        channel := v.channel
        voice := v.id
        decorations
        grace := false
        part }
    .ok (v.addNote note, m, v.notes.length)

/-- Share of its written length that a grace note sounds for. -/
def graceScale : β := 0.5

/-- The largest share of the principal that grace notes take. -/
def mostGraceShare : β := 0.5

/-- Appends grace notes one after another from a time on, and returns the time after them. -/
def addGraces (v : Voice β) (velocity : Int) (factor : β) (part : Option Char) :
    List (Grace β) → β → Voice β × β
  | [], time => (v, time)
  | g :: rest, time =>
    let duration := g.beats * factor
    let note : Note β :=
      { pitch := v.soundingPitch g.written
        velocity := v.scaleVelocity velocity.toNat
        start := time
        duration
        channel := v.channel
        voice := v.id
        decorations := []
        grace := true
        part }
    addGraces (v.addNote note) velocity factor part rest (time + duration)

/-- Places grace notes before a principal of the given length, and returns the beats that they
take from it. -/
def placeGraces (v : Voice β) (velocity : Int) (graces : List (Grace β)) (start principal : β)
    (part : Option Char) : Voice β × β :=
  let total := Beats.sum (graces.map (·.beats))
  if total ≤ 0.0 then (v, 0.0)
  else
    let limit := principal * mostGraceShare
    let factor := if limit < total then limit / total else 1.0
    let (v, time) := addGraces v velocity factor part graces start
    (v, time - start)

end AbcTune
