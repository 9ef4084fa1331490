import AbcTune.Playback.Player
import AbcTune.Playback.Scheduler

/-! # The ticker

The ticker does the playing. Each of its ticks copies what it needs from the shared state, plays
by itself, and then reports to the shared state what came of it. Requests may come between these
phases, so each of them looks at the shared state anew.
-/
namespace AbcTune

structure Ticker (β : Type) where
  player : Option (Player β)
  /-- Until when silence is kept between slots. -/
  gapUntil : Option Nat
  /-- When the last tick started; times are in nanoseconds. -/
  lastTick : Nat
  /-- Milliseconds of silence after a slot that asks for none of its own. -/
  usualGap : Nat
  /-- Most notes that sound together. -/
  capacity : Nat

/-- What a tick copies from the shared state. -/
structure Snapshot (β : Type) where
  slot : Option (Slot β)
  paused : Bool
  volume : Float32
  tempo : β

/-- What a tick has to report. -/
inductive Report (β : Type) where
  | nothing
  | position (beats : β)
  | finished (slot : Slot β)

variable {β : Type} [Beats β]

def nanosPerMilli : Nat := 1000000

namespace Ticker

def new (usualGap capacity now : Nat) : Ticker β where
  player := none
  gapUntil := none
  lastTick := now
  usualGap
  capacity

/-- A stop ends any gap. -/
def noticeStop (t : Ticker β) (s : Scheduler β) : Ticker β × Scheduler β :=
  if s.stopped then ({ t with gapUntil := none }, { s with stopped := false }) else (t, s)

def isGapOver (t : Ticker β) (now : Nat) : Bool := t.gapUntil.all (· ≤ now)

/-- Takes the next slot up if none is current and no gap is kept. -/
def takeUp (t : Ticker β) (s : Scheduler β) (now : Nat) : Ticker β × Scheduler β :=
  if s.current.isSome then ({ t with gapUntil := none }, s)
  else if !s.queue.isEmpty && t.isGapOver now then ({ t with gapUntil := none }, s.advanceQueue)
  else (t, s)

/-- The first phase of a tick: copies the shared state, starting the next slot when idle. -/
def snapshot (t : Ticker β) (s : Scheduler β) (now : Nat) (available : Bool) :
    Ticker β × Scheduler β × Snapshot β :=
  let (t, s) := t.noticeStop { s with available }
  let (t, s) := t.takeUp s now
  (t, s, ⟨s.current, s.paused, s.volume, s.tempo⟩)

/-- The id of the slot that the ticker is playing. -/
def playing (t : Ticker β) : Option Nat := t.player.map (·.slotId)

/-- Releases the player of a slot that is no longer the current one. -/
def leave (t : Ticker β) (backend : Backend) : Ticker β × List Emission :=
  match t.player with
  | none => (t, [])
  | some p => ({ t with player := none }, (p.releaseAll backend).2)

def enter (t : Ticker β) (backend : Backend) (slot : Slot β) (volume : Float32) :
    Option (Ticker β × List Emission) :=
  let p := Player.new slot t.capacity
  (p.advance backend 0.0 volume).map fun (q, sent) =>
    ({ t with player := some q }, p.start backend ++ sent)

def proceed (t : Ticker β) (backend : Backend) (slot : Slot β) (p : Player β) (beats : β)
    (volume : Float32) : Option (Ticker β × List Emission × Report β) :=
  (p.advance backend beats volume).map fun (p, sent) =>
    if !p.isFinished then ({ t with player := some p }, sent, .position p.position)
    else if slot.options.looping then
      let (p, released) := p.rewind backend
      ({ t with player := some p }, sent ++ released, .position 0.0)
    else ({ t with player := none }, sent, .finished slot)

/-- The second phase of a tick: plays what falls due. There is no result if playing never ends. -/
def play (t : Ticker β) (backend : Backend) (snap : Snapshot β) (elapsed : Nat) :
    Option (Ticker β × List Emission × Report β) :=
  if t.playing = snap.slot.map (·.id) then
    match snap.slot, t.player with
    | some slot, some p =>
      if snap.paused then some (t, [], .nothing)
      else
        let beats := beatsElapsed elapsed slot.tune.heading.tempo.bpm snap.tempo
        t.proceed backend slot p beats snap.volume
    | _, _ => some (t, [], .nothing)
  else
    let (t, released) := t.leave backend
    match snap.slot with
    | none => some (t, released, .nothing)
    | some slot =>
      (t.enter backend slot snap.volume).map fun (t, sent) => (t, released ++ sent, .position 0.0)

/-- Retires a finished slot, if it is still the current one, and keeps the gap after it. -/
def finish (t : Ticker β) (s : Scheduler β) (slot : Slot β) (now : Nat) :
    Ticker β × Scheduler β :=
  if s.isCurrent slot.id then
    let s := { s with current := none, paused := false, position := 0.0 }
    let gap := slot.gap t.usualGap
    if gap = 0 then (t, s.advanceQueue)
    else ({ t with gapUntil := some (now + gap * nanosPerMilli) }, s)
  else (t, s)

/-- The last phase of a tick: reports to the shared state. -/
def report (t : Ticker β) (s : Scheduler β) (now : Nat) : Report β → Ticker β × Scheduler β
  | .nothing => (t, s)
  | .position beats => (t, { s with position := beats })
  | .finished slot => t.finish s slot now

/-- A tick with no request between its phases. -/
def tick (t : Ticker β) (s : Scheduler β) (backend : Backend) (now : Nat) :
    Option (Ticker β × Scheduler β × List Emission) :=
  let elapsed := now - t.lastTick
  let (t, s, snap) := { t with lastTick := now }.snapshot s now backend.available
  (t.play backend snap elapsed).map fun (t, sent, r) =>
    let (t, s) := t.report s now r
    (t, s, sent)

end Ticker
end AbcTune
