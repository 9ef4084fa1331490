import AbcTune.Connection
import AbcTune.Control.Response
import AbcTune.EventSheet
import AbcTune.Playback.Jukebox

/-! # The command line

A tune can be checked, written out as an event sheet or played, a player can be served, and a
command can be sent to one. A configuration file may be named before or after the action.
-/
namespace AbcTune.CommandLine

inductive Action where
  | check (input : String)
  | events (input : String)
  | play (input : String) (looping : Bool)
  | serve (listen : Option String)
  | send (words : List String)
  deriving DecidableEq, Repr

structure Invocation where
  config : Option String
  action : Action
  deriving DecidableEq, Repr

/-- Options and positional words, as far as they have been read. -/
structure Given where
  config : Option String
  listen : Option String
  looping : Bool
  words : List String

/-- The value written behind the name of an option in the same word: after a long name an equals
sign comes first, and after a short one it may. -/
def attached? (long short word : String) : Option String :=
  let t := word.toList
  match Text.dropMark? (long.toList ++ ['=']) t with
  | some value => some (String.ofList value)
  | none =>
    match Text.dropMark? short.toList t with
    | some ('=' :: value) => some (String.ofList value)
    | some (c :: rest) => some (String.ofList (c :: rest))
    | _ => none

def isOption (word : String) : Bool :=
  match word.toList with
  | '-' :: _ :: _ => true
  | _ => false

/-- Reads words; after two dashes alone all are positional. -/
def readWords (g : Given) : List String → Option Given
  | [] => some g
  | "--" :: rest => some { g with words := g.words ++ rest }
  | word :: rest =>
    if word = "--config" ∨ word = "-c" then
      match rest with
      | value :: rest => readWords { g with config := some value } rest
      | [] => none
    else if word = "--listen" ∨ word = "-l" then
      match rest with
      | value :: rest => readWords { g with listen := some value } rest
      | [] => none
    else if word = "--loop" then readWords { g with looping := true } rest
    else
      match attached? "--config" "-c" word, attached? "--listen" "-l" word with
      | some value, _ => readWords { g with config := some value } rest
      | none, some value => readWords { g with listen := some value } rest
      | none, none =>
        if isOption word then none else readWords { g with words := g.words ++ [word] } rest

def action? (g : Given) : Option Action :=
  match g.words, g.listen, g.looping with
  | ["check", input], none, false => some (.check input)
  | ["events", input], none, false => some (.events input)
  | ["play", input], none, looping => some (.play input looping)
  | ["serve"], listen, false => some (.serve listen)
  | "send" :: words, none, false => some (.send words)
  | _, _, _ => none

def read? (words : List String) : Option Invocation := do
  let g ← readWords ⟨none, none, false, []⟩ words
  let action ← action? g
  some ⟨g.config, action⟩

/-- What a program leaves behind. -/
structure Result where
  code : Nat
  output : String
  errors : String

def Result.success (output : String) : Result := ⟨0, output, ""⟩

def Result.failure (errors : List String) : Result :=
  ⟨1, "", String.join (errors.map (· ++ "\n"))⟩

def Result.usage : Result :=
  ⟨2, "", "Usage: [-c FILE] check FILE | events FILE | play [--loop] FILE | " ++
    "serve [-l ADDRESS] | send WORDS\n"⟩

/-- What there is to do: to end with a result, or to play until the scheduler is idle. -/
inductive Task where
  | finish (result : Result)
  | play (config : Config) (jukebox : Jukebox)

/-- What a run of the program knows of its surroundings. -/
structure Surroundings where
  files : ReadFile
  hasProgram : Text → Bool

/-- A tune without problems, or the lines that report what is in its way. -/
def readTune (s : Surroundings) (input : String) :
    Except Fault (Except (List String) (Tune Float)) :=
  match s.files input with
  | .error p => .ok (.error ["Error reading file '" ++ input ++ "': " ++ p.message])
  | .ok source => do
    let tune ← Tune.read source.toList
    if tune.isComplete then .ok (.ok tune)
    else .ok (.error (tune.diagnostics.map fun d => input ++ ": " ++ d.message))

def checkLines (t : Tune Float) : List String :=
  [ "Title:    " ++ t.displayTitle,
    "Voices:   " ++ ", ".intercalate t.voiceOrder,
    "Events:   " ++ toString t.events.length,
    "Duration: " ++ Number.twoPlaces t.durationBeats ++ " beats" ]

def jukebox (c : Config) : Jukebox where
  scheduler := .new c.queueCapacity c.volume c.tempo true
  ticker := .new c.gap c.noteCapacity 0
  running := true
  backend := .accepting
  now := 0
  taken := []

def playTask (c : Config) (t : Tune Float) (looping : Bool) : Task :=
  let j := jukebox c
  match j.scheduler.enqueue t ⟨looping, none⟩ with
  | (scheduler, .ok _) => .play c { j with scheduler }
  | (_, .error p) => .finish (.failure [p.message])

/-- No network is at hand, so every address is refused. -/
def serveResult (address : Text) : Result :=
  let p := (addressProblem? address).getD .refused
  .failure ["Could not listen on " ++ String.ofList address ++ ": " ++ p.message]

def sendResult (s : Surroundings) (c : Config) (words : List String) : Result :=
  match Command.read (" ".intercalate words).toList with
  | .error p => .failure [p.message]
  | .ok _ =>
    .failure ["Player unavailable: " ++ (openProblem s.hasProgram c.listen c.playerCommand).message]

/-- Does something with a tune without problems, or reports what is in its way. -/
def withTune (s : Surroundings) (input : String) (f : Tune Float → Task) : Except Fault Task := do
  match ← readTune s input with
  | .ok t => .ok (f t)
  | .error lines => .ok (.finish (.failure lines))

def act (s : Surroundings) (c : Config) : Action → Except Fault Task
  | .check input => withTune s input fun t =>
    .finish (.success (String.join ((checkLines t).map (· ++ "\n"))))
  | .events input => withTune s input fun t => .finish (.success (EventSheet.write t.events))
  | .play input looping => withTune s input fun t => playTask c t looping
  | .serve listen => .ok (.finish (serveResult ((listen.map String.toList).getD c.listen)))
  | .send words => .ok (.finish (sendResult s c words))

def config (s : Surroundings) : Option String → Except ConfigProblem Config
  | none => .ok .standard
  | some path => Config.ofFile path (s.files path)

/-- Runs a command line up to its end, or up to where playing starts. -/
def run (s : Surroundings) (words : List String) : Except Fault Task :=
  match read? words with
  | none => .ok (.finish .usage)
  | some i =>
    match config s i.config with
    | .error p => .ok (.finish (.failure [p.message]))
    | .ok c => act s c i.action

end AbcTune.CommandLine
