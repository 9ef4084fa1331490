import AbcTune.Notice
import AbcTune.Playback.Backend

/-! # Notices of playing

The logging backend writes out each message that it takes. A refused message and a note that has
to make room are logged with any backend.
-/
namespace AbcTune

def padLeft (width : Nat) (n : Nat) : String :=
  let digits := toString n
  String.ofList (List.replicate (width - digits.length) ' ') ++ digits

/-- A message in words; channels are written from 1. -/
def Message.describe : Message → String
  | .noteOn channel pitch velocity =>
    "note on  ch " ++ padLeft 2 (channel + 1) ++ " pitch " ++ padLeft 3 pitch ++
      " vel " ++ padLeft 3 velocity
  | .noteOff channel pitch =>
    "note off ch " ++ padLeft 2 (channel + 1) ++ " pitch " ++ padLeft 3 pitch
  | .programChange channel program =>
    "program  ch " ++ padLeft 2 (channel + 1) ++ " -> " ++ toString program

/-- A refused message in words. -/
def Message.failure (m : Message) (r : Refusal) : String :=
  let what := match m with
    | .noteOn _ pitch _ => "Note on " ++ toString pitch
    | .noteOff _ pitch => "Note off " ++ toString pitch
    | .programChange channel _ => "Program change on channel " ++ toString (channel + 1)
  what ++ " failed: " ++ r.message

/-- What is logged of an emission, by a backend that writes messages out or not. -/
def Emission.notices (writesOut : Bool) : Emission → List Notice
  | .sent m none => if writesOut then [.info m.describe] else []
  | .sent m (some r) => [.warn (m.failure r)]
  | .crowded pitch => [.debug ("Active note registry full, releasing " ++ toString pitch)]

end AbcTune
