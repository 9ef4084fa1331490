import AbcTune.Control.Command
import AbcTune.Files
import AbcTune.Playback.Scheduler
import AbcTune.Tune.Reading

/-! # Responses

Each command is answered by data lines and a last line that says whether it was carried out.
-/
namespace AbcTune

structure Response where
  lines : List Text
  /-- What went wrong, if anything did. -/
  problem : Option Text

namespace Response

def ok (lines : List String) : Response := ⟨lines.map String.toList, none⟩

def error (message : String) : Response := ⟨[], some message.toList⟩

/-- The last line; an error is kept on one line. -/
def lastLine (r : Response) : Text :=
  match r.problem with
  | none => "OK".toList
  | some message => "ERROR ".toList ++ message.map fun c => if c = '\n' then ' ' else c

/-- The lines of a response as they are sent. -/
def write (r : Response) : Text := ((r.lines ++ [r.lastLine]).map (· ++ ['\n'])).flatten

end Response

def greeting : Text := "ABCPLAY READY".toList

def yesNo (b : Bool) : String := if b then "yes" else "no"

/-- The response to a request that tells nothing but whether it was carried out. -/
def Response.ofResult : Except (SchedulerProblem Float) Unit → Response
  | .ok () => .ok []
  | .error p => .error p.message

namespace Scheduler

/-- Reads notation and queues it if it has no problem. -/
def queueNotation (s : Scheduler Float) (source : Text) (options : SlotOptions) :
    Except Fault (Scheduler Float × Response) := do
  let tune ← Tune.read source
  match tune.compiled with
  | .error d => .ok (s, .error d.message)
  | .ok tune =>
    match s.enqueue tune options with
    | (s, .ok id) => .ok (s, .ok ["Queued " ++ toString id])
    | (s, .error p) => .ok (s, .error p.message)

def statusLines (s : Scheduler Float) : List String :=
  let status := s.status
  [ "Queue size: " ++ toString status.queueSize,
    "Playing: " ++ yesNo status.playing,
    "Paused: " ++ yesNo status.paused,
    "Volume: " ++ Number.twoPlacesSingle status.volume,
    "Tempo: " ++ Number.twoPlaces status.tempo ] ++
  match status.current with
  | none => []
  | some slot =>
    [ "Current: " ++ toString slot.id ++ " " ++ slot.title,
      "Position: " ++ Number.twoPlaces status.position ]

def listLine (s : Scheduler Float) (slot : SlotInfo Float) : String :=
  toString slot.id ++ ": " ++ slot.title ++
    (if s.isCurrent slot.id then " [playing]" else "") ++
    (if slot.looping then " [loop]" else "")

def execute (s : Scheduler Float) (files : ReadFile) :
    Command → Except Fault (Scheduler Float × Response)
  | .queueNotation t => s.queueNotation t .once
  | .loopNotation t => s.queueNotation t .forever
  | .queueFile path =>
    match files (String.ofList path) with
    | .ok source => s.queueNotation source.toList .once
    | .error p =>
      .ok (s, .error ("Could not read " ++ String.ofList path ++ ": " ++ p.message))
  | .stop => .ok (s.stop, .ok [])
  | .pause => .ok (s.pause, .ok [])
  | .resume => .ok (s.resume, .ok [])
  | .skip =>
    let (next, skipped) := s.skip
    .ok (next, .ok (skipped.toList.map fun id => "Skipped " ++ toString id))
  | .remove id =>
    let (s, result) := s.remove id
    .ok (s, .ofResult result)
  | .clear =>
    let (s, count) := s.clear
    .ok (s, .ok ["Cleared " ++ toString count])
  | .volume v =>
    let (s, result) := s.setVolume v
    .ok (s, .ofResult result)
  | .tempo t =>
    let (s, result) := s.setTempo t
    .ok (s, .ofResult result)
  | .status => .ok (s, .ok s.statusLines)
  | .list => .ok (s, .ok (s.list.map s.listLine))

def answer (s : Scheduler Float) (files : ReadFile) (line : Text) :
    Except Fault (Scheduler Float × Response) :=
  match Command.read line with
  | .ok c => s.execute files c
  | .error p => .ok (s, .error p.message)

/-- Answers lines one after another, but for blank ones. -/
def answerLines (s : Scheduler Float) (files : ReadFile) :
    List Text → Except Fault (Scheduler Float × List Response)
  | [] => .ok (s, [])
  | line :: rest =>
    if Text.isBlankLine line then s.answerLines files rest
    else do
      let (s, r) ← s.answer files line
      let (s, rs) ← s.answerLines files rest
      .ok (s, r :: rs)

/-- Greets, and answers all lines of a conversation. -/
def serve (s : Scheduler Float) (files : ReadFile) (input : Text) :
    Except Fault (Scheduler Float × Text) := do
  let (s, rs) ← s.answerLines files (Text.lines input)
  .ok (s, greeting ++ ['\n'] ++ (rs.map Response.write).flatten)

end Scheduler
end AbcTune
