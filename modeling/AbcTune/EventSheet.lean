import AbcTune.Note
import AbcTune.Yaml.Writing

/-! # Event sheets

The notes of a tune in the order of playing are written as a YAML list of mappings.
-/
namespace AbcTune.EventSheet

def boolText (b : Bool) : String := if b then "true" else "false"

/-- Lines of a list item: the first one has the dash, and the others are indented to it. -/
def itemLines : List String → List String
  | [] => []
  | first :: rest => ("- " ++ first) :: rest.map ("  " ++ ·)

def decorationLines (d : Decoration) : List String :=
  [ "kind: " ++ d.kind.name,
    "variant: " ++ String.ofList (Yaml.writeText 6 d.variant.toList),
    "is_extended_span: " ++ boolText d.spanning,
    "intensity: " ++ toString d.intensity,
    "affects_velocity: " ++ boolText d.affectsVelocity,
    "affects_duration: " ++ boolText d.affectsDuration ]

/-- The lines of the decorations of a note, with their key. -/
def decorationsLines (ds : List Decoration) : List String :=
  if ds.isEmpty then ["decorations: []"]
  else "decorations:" :: ds.flatMap fun d => itemLines (decorationLines d)

def partText : Option Char → String
  | none => "null"
  | some c => String.ofList (Yaml.writeChar c)

def noteLines (n : Note Float) : List String :=
  [ "pitch: " ++ toString n.pitch,
    "velocity: " ++ toString n.velocity,
    "start: " ++ Number.sheet n.start,
    "duration: " ++ Number.sheet n.duration,
    "channel: " ++ toString n.channel,
    "voice: " ++ String.ofList (Yaml.writeText 4 n.voice.toList) ] ++
  decorationsLines n.decorations ++
  [ "isGrace: " ++ boolText n.grace,
    "part: " ++ partText n.part ]

/-- The sheet of a list of notes, each line with its line feed. -/
def write (notes : List (Note Float)) : String :=
  if notes.isEmpty then "[]\n"
  else String.join ((notes.flatMap fun n => itemLines (noteLines n)).map (· ++ "\n"))

end AbcTune.EventSheet
