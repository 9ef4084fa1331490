import AbcTune.CommandLine

/-! # The program

Reading files, printing and waiting are done here; all else is in the other modules.
-/
namespace AbcTune

def readFileText (path : String) : IO (Except FileProblem String) := do
  try
    return .ok (← IO.FS.readFile path)
  catch
    | .noFileOrDirectory .. => return .error .missing
    | .inappropriateType .. => return .error .directory
    | e => return .error (.other (toString e))

/-- The files that a command line may name, read ahead. -/
def readAhead (words : List String) : IO ReadFile := do
  let read ← words.mapM fun w => do return (w, ← readFileText w)
  return fun path => (read.lookup path).getD (.error .missing)

/-- The words of a command line and the values attached to options in them. -/
def fileWords (words : List String) : List String :=
  words ++ words.filterMap (CommandLine.attached? "--config" "-c")

/-- Plays until the scheduler is idle. -/
partial def playOn (config : Config) (jukebox : Jukebox) : IO UInt32 := do
  IO.sleep config.tick.toUInt32
  let now ← IO.monoNanosNow
  match jukebox.tick (now - jukebox.now) with
  | .error _ => return 101
  | .ok (next, _) =>
    if next.scheduler.slots.isEmpty then return 0 else playOn config next

def runTask : CommandLine.Task → IO UInt32
  | .finish r => do
    IO.print r.output
    IO.eprint r.errors
    return r.code.toUInt32
  | .play config jukebox => do
    let now ← IO.monoNanosNow
    playOn config { jukebox with now, ticker := { jukebox.ticker with lastTick := now } }

end AbcTune

def main (words : List String) : IO UInt32 := do
  let files ← AbcTune.readAhead (AbcTune.fileWords words)
  match AbcTune.CommandLine.run ⟨files, fun _ => false⟩ words with
  | .error _ => return 101
  | .ok task => AbcTune.runTask task
