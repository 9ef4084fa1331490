import AbcTune.Fault
import AbcTune.Playback.Backend
import AbcTune.Playback.Slot

/-! # Playing one tune

A player moves a cursor along the beat axis and sends what falls due on the way, in the order of
time and note-offs before note-ons. It keeps a list of the notes that sound, of bounded size: when
that is full the oldest note is released to make room.
-/
namespace AbcTune

variable {β : Type} [Beats β]

def beatSlack : β := 1e-9

def nanosPerSecond : Nat := 1000000000

/-- A time in nanoseconds as seconds. -/
def seconds (nanos : Nat) : β :=
  Beats.ofNat (nanos / nanosPerSecond) +
    Beats.ofNat (nanos % nanosPerSecond) / Beats.ofNat nanosPerSecond

/-- Beats that pass in a time, at a tempo and a multiple of it. -/
def beatsElapsed (nanos : Nat) (bpm multiplier : β) : β := seconds nanos * bpm * multiplier / 60.0

/-- A time in seconds as nanoseconds, rounded to nearest and a half to the even neighbour. Seconds
are counted in 64 bits. -/
def nanosOfSeconds (seconds : Float) : Except Fault Nat :=
  match Number.Binary.ofFloat seconds with
  | .finite false mantissa exponent =>
    let (num, den) := Number.ratio mantissa exponent
    if num < Nat.pow 2 64 * den then .ok (Number.roundEven (num * nanosPerSecond) den)
    else .error .timeRange
  | _ => .error .timeRange

/-- The time in nanoseconds that beats take at a tempo and a multiple of it. What is not positive
takes no time. -/
def beatsTime (beats bpm multiplier : Float) : Except Fault Nat :=
  if bpm ≤ 0.0 ∨ multiplier ≤ 0.0 ∨ beats ≤ 0.0 then .ok 0
  else nanosOfSeconds (beats * 60.0 / (bpm * multiplier))

def dispatchVelocity (velocity : Nat) (volume : Float32) : Nat := scaledVelocity velocity volume

/-- A note that sounds until a beat. -/
structure ActiveNote (β : Type) where
  pitch : Nat
  channel : Nat
  stop : β

structure Player (β : Type) where
  slotId : Nat
  tune : Tune β
  /-- Most notes that sound together. -/
  capacity : Nat
  /-- Events of the tune still to come. -/
  upcoming : List (Note β)
  /-- The cursor, in beats. -/
  position : β
  /-- Notes that sound, the oldest first. -/
  active : List (ActiveNote β)

namespace Player

def new (slot : Slot β) (capacity : Nat) : Player β where
  slotId := slot.id
  tune := slot.tune
  capacity := max capacity 1
  upcoming := slot.tune.events
  position := 0.0
  active := []

def off (backend : Backend) (n : ActiveNote β) : Emission :=
  backend.send (.noteOff n.channel n.pitch)

/-- Channels and programs of the voices that ask for one, by the first such voice of each
channel; `given` have theirs already. -/
def programs (given : List Nat) : List (Voice β) → List (Nat × Nat)
  | [] => []
  | v :: rest =>
    match v.program with
    | none => programs given rest
    | some program =>
      if v.muted || given.contains v.channel then programs given rest
      else (v.channel, program) :: programs (v.channel :: given) rest

/-- Sends the programs of the voices. -/
def start (p : Player β) (backend : Backend) : List Emission :=
  (programs [] p.tune.orderedVoices).map fun (channel, program) =>
    backend.send (.programChange channel program)

/-- The earlier of two positions, where an absent one is later than all. -/
def earliest : Option β → Option β → Option β
  | none, b => b
  | a, none => a
  | some a, some b => some (Beats.earlier a b)

/-- Where the next of the sounding notes ends. -/
def nextOff (p : Player β) : Option β :=
  p.active.foldl (fun due n => earliest due (some n.stop)) Beats.latest

def nextOn (p : Player β) : Option β :=
  match p.upcoming with
  | [] => Beats.latest
  | n :: _ => some n.start

def isBeyond (limit : β) : Option β → Bool
  | none => true
  | some due => limit < due

/-- Whether note-offs are due no later than note-ons. -/
def offFirst : Option β → Option β → Bool
  | _, none => true
  | none, some _ => false
  | some off, some on => off ≤ on

def endsBy (beat : β) (n : ActiveNote β) : Bool := n.stop ≤ beat + beatSlack

def releaseUntil (p : Player β) (backend : Backend) (beat : β) : Player β × List Emission :=
  ({ p with active := p.active.filter (!endsBy beat ·) },
    (p.active.filter (endsBy beat)).map (off backend))

/-- Whether a sounding note has the key of an event. -/
def sameKey (event : Note β) (n : ActiveNote β) : Bool :=
  n.pitch = event.pitch && n.channel = event.channel

/-- Releases the note that has the key of an event, if one sounds. -/
def release (p : Player β) (backend : Backend) (event : Note β) : Player β × List Emission :=
  ({ p with active := p.active.eraseP (sameKey event) },
    ((p.active.find? (sameKey event)).map (off backend)).toList)

/-- Adds a sounding note; if there is no place for it the oldest one is released. -/
def push (p : Player β) (backend : Backend) (n : ActiveNote β) : Player β × List Emission :=
  if p.active.length < p.capacity then ({ p with active := p.active ++ [n] }, [])
  else
    match p.active with
    | [] => (p, [])
    | oldest :: rest =>
      ({ p with active := rest ++ [n] }, [.crowded oldest.pitch, off backend oldest])

/-- Sends a note, unless its velocity comes to nothing. -/
def sound (p : Player β) (backend : Backend) (volume : Float32) (event : Note β) :
    Player β × List Emission :=
  let velocity := dispatchVelocity event.velocity volume
  if velocity = 0 then (p, [])
  else
    let (p, released) := p.release backend event
    let message := Message.noteOn event.channel event.pitch velocity
    match backend.refusal? message with
    | some refusal => (p, released ++ [.sent message (some refusal)])
    | none =>
      let (p, evicted) := p.push backend ⟨event.pitch, event.channel, event.stop⟩
      (p, released ++ (.sent message none :: evicted))

/-- What falls due next up to a limit, or nothing. -/
def step (p : Player β) (backend : Backend) (volume : Float32) (limit : β) :
    Option (Player β × List Emission) :=
  if isBeyond limit (earliest p.nextOff p.nextOn) then none
  else if offFirst p.nextOff p.nextOn then
    some (match p.nextOff with
      | some beat => p.releaseUntil backend beat
      | none => (p, []))
  else
    match p.upcoming with
    | [] => none
    | event :: rest => some ({ p with upcoming := rest }.sound backend volume event)

/-- Takes steps until none is due, at most `fuel` tries. -/
def run (backend : Backend) (volume : Float32) (limit : β) :
    (fuel : Nat) → Player β → Option (Player β × List Emission)
  | 0, _ => none
  | fuel + 1, p =>
    match p.step backend volume limit with
    | none => some (p, [])
    | some (p, sent) => (run backend volume limit fuel p).map fun (p, more) => (p, sent ++ more)

/-- Steps that a player can take: each event is sent once, and each note is released once. -/
def mostSteps (p : Player β) : Nat := 2 * p.upcoming.length + p.active.length

/-- Moves the cursor forward and sends all that falls due on the way. There is no result if steps
that change nothing never end. -/
def advance (p : Player β) (backend : Backend) (beats : β) (volume : Float32) :
    Option (Player β × List Emission) :=
  let target := p.position + Beats.later beats 0.0
  (run backend volume (target + beatSlack) (p.mostSteps + 1) p).map fun (p, sent) =>
    ({ p with position := target }, sent)

def releaseAll (p : Player β) (backend : Backend) : Player β × List Emission :=
  ({ p with active := [] }, p.active.map (off backend))

/-- Whether everything was sent and released and the cursor has reached the end of the tune. -/
def isFinished (p : Player β) : Bool :=
  p.upcoming.isEmpty && p.active.isEmpty &&
    decide (p.tune.durationBeats ≤ p.position + beatSlack)

def rewind (p : Player β) (backend : Backend) : Player β × List Emission :=
  let (p, sent) := p.releaseAll backend
  ({ p with upcoming := p.tune.events, position := 0.0 }, sent)

end Player
end AbcTune
