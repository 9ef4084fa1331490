import AbcTune.Part
import AbcTune.Tune

/-! # Assembling a tune

When all lines have been read the parts are laid out in the order of the part sequence, and the
notes of all voices are merged. Notes written before the first part play first. An undefined part
leaves the notes in written order.
-/
namespace AbcTune.Tune

variable {β : Type} [Beats β]

/-- A tune has at least one voice. -/
def withImplicitVoice (t : Tune β) (id : String) : Tune β :=
  if t.voices.isEmpty then
    { t with
      voices := [{ Voice.new id with status := .defined }]
      voiceOrder := [id] }
  else t

/-- The furthest point that a voice reaches, rests and the ends of notes included. -/
def writtenEnd (voices : List (Voice β)) : β :=
  (voices.flatMap fun v => v.notes.map Note.stop ++ [v.savedTime]).foldl Beats.later 0.0

structure PartRange (β : Type) where
  label : Char
  start : β
  stop : β

/-- Each part ends where the next one starts, and the last one with the tune. -/
def partRanges (tuneEnd : β) : List (Section β) → List (PartRange β)
  | [] => []
  | [s] => [⟨s.label, s.start, tuneEnd⟩]
  | s :: next :: rest => ⟨s.label, s.start, next.start⟩ :: partRanges tuneEnd (next :: rest)

/-- The parts of a sequence, of which the first one written with each label counts; or the first
label without a part. -/
def resolveParts (ranges : List (PartRange β)) : List Char → Except Char (List (PartRange β))
  | [] => .ok []
  | label :: rest =>
    match ranges.find? (·.label = label) with
    | none => .error label
    | some r => (resolveParts ranges rest).map (r :: ·)

/-- Slack in deciding which part a note starts in. -/
def partSlack : β := 1e-9

def PartRange.holds (r : PartRange β) (n : Note β) : Bool :=
  n.part = some r.label && decide (r.start - partSlack ≤ n.start) &&
    decide (n.start < r.stop - partSlack)

def PartRange.length (r : PartRange β) : β := r.stop - r.start

/-- Copies of the notes of each part, laid end to end from a beat on. -/
def layOut (notes : List (Note β)) : List (PartRange β) → β → List (Note β)
  | [], _ => []
  | r :: rest, cursor =>
    (notes.filter r.holds).map (fun n => { n with start := n.start + (cursor - r.start) }) ++
      layOut notes rest (cursor + r.length)

/-- The notes of a voice in the order of a part sequence. -/
def arrange (start : β) (parts : List (PartRange β)) (v : Voice β) : Voice β :=
  { v with notes := v.notes.filter (·.part.isNone) ++ layOut v.notes parts start }

def expandParts (t : Tune β) (sections : List (Section β)) (sequence : List Char) :
    Except Char (Tune β) :=
  (resolveParts (partRanges t.length sections) sequence).map fun parts =>
    let start := match sections with
      | [] => 0.0
      | s :: _ => s.start
    { t with
      voices := t.voices.map (arrange start parts)
      length := start + Beats.sum (parts.map PartRange.length) }

/-- Notes in the order of their starts; those that start together keep their order. -/
def sortNotes (notes : List (Note β)) : List (Note β) :=
  notes.mergeSort fun a b => Beats.sortsBefore a.start b.start

/-- The notes of all voices by start, and of those that start together by voice. -/
def mergeVoices (t : Tune β) : List (Note β) := sortNotes (t.orderedVoices.flatMap (·.notes))

/-- Lays out the parts, if a sequence asks for it. -/
def arrangeParts (t : Tune β) (sections : List (Section β)) (sequenceLine : Nat) :
    Tune β × Option Diagnostic :=
  match t.heading.partSequence with
  | none | some [] => (t, none)
  | some sequence =>
    match t.expandParts sections sequence with
    | .ok t => (t, none)
    | .error label => (t, some (.structural sequenceLine (.undefinedPart label)))

/-- Completes a tune whose lines have all been read. -/
def assemble (t : Tune β) (implicitVoice : String) (sections : List (Section β))
    (sequenceLine : Nat) : Tune β × Option Diagnostic :=
  let t := t.withImplicitVoice implicitVoice
  let t := { t with length := writtenEnd t.voices }
  let (t, problem) := t.arrangeParts sections sequenceLine
  ({ t with events := t.mergeVoices }, problem)

end AbcTune.Tune
