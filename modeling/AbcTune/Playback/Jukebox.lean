import AbcTune.Fault
import AbcTune.Playback.Ticker

/-! # The jukebox

A scheduler together with the ticker that plays from it, the clock it goes by, and all that its
backend has taken.
-/
namespace AbcTune

structure Jukebox where
  scheduler : Scheduler Float
  ticker : Ticker Float
  running : Bool
  backend : Backend
  /-- The time in nanoseconds. -/
  now : Nat
  /-- All messages that the backend has taken. -/
  taken : List Message

namespace Jukebox

def record (j : Jukebox) (sent : List Emission) : Jukebox :=
  { j with taken := j.taken ++ Emission.taken sent }

/-- One tick after a time, in nanoseconds. -/
def tick (j : Jukebox) (elapsed : Nat) : Except Fault (Jukebox × List Emission) :=
  let now := j.now + elapsed
  if j.running then
    match j.ticker.tick j.scheduler j.backend now with
    | none => .error .endless
    | some (ticker, scheduler, sent) => .ok ({ j with ticker, scheduler, now }.record sent, sent)
  else .ok ({ j with now }, [])

/-- Ticks at even distances. -/
def ticks (elapsed : Nat) : (count : Nat) → Jukebox → Except Fault (Jukebox × List Emission)
  | 0, j => .ok (j, [])
  | count + 1, j => do
    let (j, sent) ← j.tick elapsed
    let (j, more) ← ticks elapsed count j
    .ok (j, sent ++ more)

/-- Ends the ticker and releases what sounds. -/
def halt (j : Jukebox) : Jukebox × List Emission :=
  let (ticker, sent) := j.ticker.leave j.backend
  ({ j with ticker, running := false }.record sent, sent)

/-- Shuts down while a tick is under way, which is completed first. -/
def shutdown (j : Jukebox) (elapsed : Nat) : Except Fault (Jukebox × List Emission) := do
  if j.running then
    let j := { j with scheduler := j.scheduler.requestShutdown }
    let (j, sent) ← j.tick elapsed
    let (j, released) := j.halt
    .ok (j, sent ++ released)
  else .ok (j, [])

end Jukebox
end AbcTune
