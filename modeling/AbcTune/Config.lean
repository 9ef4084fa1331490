import AbcTune.Files
import AbcTune.Playback.Scheduler
import AbcTune.Yaml.Mapping

/-! # Configuration

The settings of a player are read from a mapping in which every key is optional. All keys are
understood first; then the values are checked, in a fixed order, against what they may be.
-/
namespace AbcTune

structure Config where
  /-- Milliseconds between ticks. -/
  tick : Nat
  /-- Milliseconds of silence between slots. -/
  gap : Nat
  queueCapacity : Nat
  /-- Most notes that sound together. -/
  noteCapacity : Nat
  volume : Float32
  /-- Multiple of the tempo of every tune. -/
  tempo : Float
  listen : Text
  /-- Milliseconds to wait for a connection. -/
  connectTimeout : Nat
  /-- The program that starts a player, with its arguments. -/
  playerCommand : Option (List Text)

/-- Why a configuration cannot be used. -/
inductive ConfigProblem where
  | unreadable (path : String) (problem : FileProblem)
  /-- The text is no mapping of known keys to values of their kinds. -/
  | malformed
  | tickRange (tick : Nat)
  | zero (key : String)
  | volumeRange (volume : Float32)
  | tempoRange (tempo : Float)
  | emptyCommand

def ConfigProblem.message : ConfigProblem → String
  | .unreadable path p => "Could not read config file " ++ path ++ ": " ++ p.message
  | .malformed => "Invalid config"
  | .tickRange n =>
    "Invalid config value: tick-ms must be between 1 and 100, got " ++ toString n
  | .zero key => "Invalid config value: " ++ key ++ " must be at least 1"
  | .volumeRange v =>
    "Invalid config value: volume must be between 0 and 1, got " ++ Number.plainSingle v
  | .tempoRange t =>
    "Invalid config value: tempo must be positive, got " ++ Number.plain t
  | .emptyCommand => "Invalid config value: player-command is empty"

namespace Config

def standard : Config where
  tick := 5
  gap := 0
  queueCapacity := 64
  noteCapacity := 128
  volume := 1.0
  tempo := 1.0
  listen := "127.0.0.1:7777".toList
  connectTimeout := 2000
  playerCommand := none

def keys : List String :=
  ["tick-ms", "gap-ms", "queue-capacity", "active-note-capacity", "volume", "tempo", "listen",
    "connect-timeout-ms", "player-command"]

/-- Whether all keys are known and each is given at most once. -/
def checkKeys (seen : List Text) : Yaml.Entries → Bool
  | [] => true
  | (key, _) :: rest =>
    keys.contains (String.ofList key) && !seen.contains key && checkKeys (key :: seen) rest

/-- Whether a value stands for something, if it stands for anything. -/
def isGiven? : Yaml.Value → Option Bool
  | .scalar s => s.isGiven?
  | .list _ => some true

/-- The value of a key as `read` understands it, if it is given. -/
def entry {α : Type} (entries : Yaml.Entries) (key : String) (read : Yaml.Value → Option α) :
    Except ConfigProblem (Option α) :=
  match entries.lookup key.toList with
  | none => .ok none
  | some v =>
    match isGiven? v, read v with
    | some false, _ => .ok none
    | some true, some x => .ok (some x)
    | _, _ => .error .malformed

/-- A number of a kind; numbers are written plainly. -/
def readNumber? {α : Type} (kind : String) (read : Text → Option α) : Yaml.Value → Option α
  | .scalar s => if s.isOfKind kind then read s.text else none
  | .list _ => none

def readText? : Yaml.Value → Option Text
  | .scalar s => some s.text
  | .list _ => none

def readTexts? : Yaml.Value → Option (List Text)
  | .scalar s => if s.isEmpty then some [] else none
  | .list items => some (items.map (·.text))

/-- Values as they were given, before they are checked. -/
structure Given where
  tick : Option Nat
  gap : Option Nat
  queueCapacity : Option Nat
  noteCapacity : Option Nat
  volume : Option Float32
  tempo : Option Float
  listen : Option Text
  connectTimeout : Option Nat
  playerCommand : Option (List Text)

def readNat? : Yaml.Value → Option Nat := readNumber? "int" (Yaml.readNat? 64)

def readFloat? : Yaml.Value → Option Float := readNumber? "float" Yaml.readFloat?

def readGiven (entries : Yaml.Entries) : Except ConfigProblem Given := do
  if !checkKeys [] entries then .error .malformed
  let tick ← entry entries "tick-ms" readNat?
  let gap ← entry entries "gap-ms" readNat?
  let queueCapacity ← entry entries "queue-capacity" readNat?
  let noteCapacity ← entry entries "active-note-capacity" readNat?
  let volume ← entry entries "volume" readFloat?
  let tempo ← entry entries "tempo" readFloat?
  let listen ← entry entries "listen" readText?
  let connectTimeout ← entry entries "connect-timeout-ms" readNat?
  let playerCommand ← entry entries "player-command" readTexts?
  .ok { tick, gap, queueCapacity, noteCapacity, volume := volume.map Float.toFloat32, tempo,
        listen, connectTimeout, playerCommand }

def positive (key : String) (n : Nat) : Except ConfigProblem Nat :=
  if n = 0 then .error (.zero key) else .ok n

/-- Checks the values, and puts the usual ones in the places of those that are not given. -/
def check (g : Given) : Except ConfigProblem Config := do
  let tick := g.tick.getD standard.tick
  if tick < 1 ∨ 100 < tick then .error (.tickRange tick)
  let queueCapacity ← positive "queue-capacity" (g.queueCapacity.getD standard.queueCapacity)
  let noteCapacity ←
    positive "active-note-capacity" (g.noteCapacity.getD standard.noteCapacity)
  let volume := g.volume.getD standard.volume
  if !isVolume volume then .error (.volumeRange volume)
  let tempo := g.tempo.getD standard.tempo
  if !isTempo tempo then .error (.tempoRange tempo)
  if g.playerCommand = some [] then .error .emptyCommand
  .ok { tick, queueCapacity, noteCapacity, volume, tempo
        gap := g.gap.getD standard.gap
        listen := g.listen.getD standard.listen
        connectTimeout := g.connectTimeout.getD standard.connectTimeout
        playerCommand := g.playerCommand }

/-- Reads a configuration; a blank one is the usual one. -/
def read (t : Text) : Except ConfigProblem Config :=
  if Text.isBlankLine t then .ok standard
  else
    match Yaml.readMapping? t with
    | none => .error .malformed
    | some entries => do check (← readGiven entries)

/-- Reads a configuration file, given what reading the file gave. -/
def ofFile (path : String) : Except FileProblem String → Except ConfigProblem Config
  | .ok content => read content.toList
  | .error p => .error (.unreadable path p)

end Config
end AbcTune
