import AbcTune.Number.Display
import AbcTune.Number.Reading

/-! # Commands

A player is controlled by lines of text. Each request is a command word with an argument; notation
travels on one line, with its line feeds written as a backslash and the letter n.
-/
namespace AbcTune

/-- Writes line feeds as a backslash and an n; a carriage return before one is dropped. -/
def escapeLines (t : Text) : Text :=
  (Text.replacePair '\r' '\n' ['\n'] t).flatMap fun c => if c = '\n' then ['\\', 'n'] else [c]

/-- Reads a backslash and an n as a line feed. -/
def unescapeLines (t : Text) : Text := Text.replacePair '\\' 'n' ['\n'] t

inductive Command where
  | queueNotation (source : Text)
  | loopNotation (source : Text)
  | queueFile (path : Text)
  | stop
  | pause
  | resume
  | skip
  | remove (id : Nat)
  | clear
  | volume (value : Float32)
  | tempo (factor : Float)
  | status
  | list

/-- Why a line is no command. -/
inductive CommandProblem where
  | empty
  | unknown (verb : Text)
  | missingArgument (verb : Text) (what : String)
  | badSlotId (argument : Text)
  | badVolume (argument : Text)
  | badTempo (argument : Text)
  deriving DecidableEq, Repr

def CommandProblem.message : CommandProblem → String
  | .empty => "Empty command"
  | .unknown verb => "Unknown command '" ++ String.ofList verb ++ "'"
  | .missingArgument verb what => String.ofList verb ++ " requires " ++ what
  | .badSlotId a => "Invalid slot id '" ++ String.ofList a ++ "'"
  | .badVolume a => "Invalid volume '" ++ String.ofList a ++ "'"
  | .badTempo a => "Invalid tempo '" ++ String.ofList a ++ "'"

namespace Command

/-- Slot ids take 64 bits. -/
def mostId : Nat := 18446744073709551615

def isLineBreak (c : Char) : Bool := c = '\r' || c = '\n'

/-- The command word and the argument of a line. -/
def splitLine (line : Text) : Text × Text :=
  let line := (line.reverse.dropWhile isLineBreak).reverse
  match Text.cutAt ' ' line with
  | some (verb, argument) => (verb, Text.trim argument)
  | none => (Text.trim line, [])

def required (verb argument : Text) (what : String) : Except CommandProblem Text :=
  if argument.isEmpty then .error (.missingArgument verb what) else .ok argument

/-- A reading of the argument, or the problem with it. -/
def orElse {α : Type} (p : CommandProblem) : Option α → Except CommandProblem α
  | some x => .ok x
  | none => .error p

/-- Reads a command from its word, in any letters, and its argument. -/
def readParts (verb argument : Text) : Except CommandProblem Command :=
  let required := required verb argument
  match String.ofList (Text.toUpper verb) with
  | "QUEUE_ABC" => (required "notation").map fun a => .queueNotation (unescapeLines a)
  | "LOOP_ABC" => (required "notation").map fun a => .loopNotation (unescapeLines a)
  | "QUEUE_FILE" => (required "a path").map .queueFile
  | "STOP" => .ok .stop
  | "PAUSE" => .ok .pause
  | "RESUME" => .ok .resume
  | "SKIP" => .ok .skip
  | "CLEAR" => .ok .clear
  | "STATUS" => .ok .status
  | "LIST" => .ok .list
  | "REMOVE" => do
    let a ← required "a slot id"
    (orElse (.badSlotId a) (Number.readNat? mostId a)).map .remove
  | "VOLUME" => do
    let a ← required "a value"
    (orElse (.badVolume a) (Number.readFloat32? a)).map .volume
  | "TEMPO" => do
    let a ← required "a value"
    (orElse (.badTempo a) (Number.readFloat? a)).map .tempo
  | "" => .error .empty
  | _ => .error (.unknown (Text.toUpper verb))

def read (line : Text) : Except CommandProblem Command :=
  let (verb, argument) := splitLine line
  readParts verb argument

/-- The line of a command, without the line feed that ends it. -/
def toLine : Command → Text
  | .queueNotation t => "QUEUE_ABC ".toList ++ escapeLines t
  | .loopNotation t => "LOOP_ABC ".toList ++ escapeLines t
  | .queueFile path => "QUEUE_FILE ".toList ++ path
  | .stop => "STOP".toList
  | .pause => "PAUSE".toList
  | .resume => "RESUME".toList
  | .skip => "SKIP".toList
  | .remove id => "REMOVE ".toList ++ Nat.toDigits 10 id
  | .clear => "CLEAR".toList
  | .volume v => "VOLUME ".toList ++ (Number.plainSingle v).toList
  | .tempo t => "TEMPO ".toList ++ (Number.plain t).toList
  | .status => "STATUS".toList
  | .list => "LIST".toList

end Command
end AbcTune
