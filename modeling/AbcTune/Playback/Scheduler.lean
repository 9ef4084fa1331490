import AbcTune.Number.Display
import AbcTune.Playback.Slot

/-! # The queue of slots

Slots play in the order of queueing, one at a time. Each operation here is one step on the shared
state; none of them waits for playing or sends a message.
-/
namespace AbcTune

/-- The state shared by those who control playing and the ticker that does it. -/
structure Scheduler (β : Type) where
  queue : List (Slot β)
  current : Option (Slot β)
  paused : Bool
  volume : Float32
  /-- Multiple of the tempo of every tune. -/
  tempo : β
  /-- The cursor in the current slot. -/
  position : β
  /-- Whether the backend took messages when last asked. -/
  available : Bool
  nextId : Nat
  /-- Set by stopping, until the ticker has seen it. -/
  stopped : Bool
  shutDown : Bool
  /-- Most slots in the queue. -/
  capacity : Nat

inductive SchedulerProblem (β : Type) where
  | queueFull (capacity : Nat)
  | incompleteTune (count : Nat)
  | backendUnavailable
  | unknownSlot (id : Nat)
  | badVolume (volume : Float32)
  | badTempo (tempo : β)
  | shutDown

def SchedulerProblem.message : SchedulerProblem Float → String
  | .queueFull capacity => "Queue is full (" ++ toString capacity ++ " slots)"
  | .incompleteTune count =>
    "Tune has " ++ toString count ++ " unresolved error(s) and cannot be queued"
  | .backendUnavailable => "Sound backend unavailable: backend is not accepting messages"
  | .unknownSlot id => "No slot with id " ++ toString id
  | .badVolume v =>
    "Invalid value: volume must be between 0 and 1, got " ++ Number.plainSingle v
  | .badTempo t => "Invalid value: tempo must be positive, got " ++ Number.plain t
  | .shutDown => "Scheduler has shut down"

structure PlaybackStatus (β : Type) where
  /-- Slots behind the current one. -/
  queueSize : Nat
  playing : Bool
  paused : Bool
  volume : Float32
  tempo : β
  current : Option (SlotInfo β)
  position : β

/-- Volumes go from silence to full. -/
def isVolume (v : Float32) : Bool := 0.0 ≤ v && v ≤ 1.0

variable {β : Type} [Beats β]

/-- Multiples of the tempo are positive and finite. -/
def isTempo (t : β) : Bool := decide ((0.0 : β) < t) && (Beats.latest.all fun top => t < top)

namespace Scheduler

def new (capacity : Nat) (volume : Float32) (tempo : β) (available : Bool) : Scheduler β where
  queue := []
  current := none
  paused := false
  volume
  tempo
  position := 0.0
  available
  nextId := 1
  stopped := false
  shutDown := false
  capacity

/-- Makes the first slot of the queue the current one. -/
def advanceQueue (s : Scheduler β) : Scheduler β :=
  { s with current := s.queue.head?, queue := s.queue.tail, paused := false, position := 0.0 }

/-- Why a tune cannot be queued, if it cannot. -/
def refusal? (s : Scheduler β) (tune : Tune β) : Option (SchedulerProblem β) :=
  if !tune.isComplete then some (.incompleteTune tune.diagnostics.length)
  else if s.shutDown then some .shutDown
  else if !s.available then some .backendUnavailable
  else if s.capacity ≤ s.queue.length then some (.queueFull s.capacity)
  else none

/-- Queues a tune and gives its id. -/
def enqueue (s : Scheduler β) (tune : Tune β) (options : SlotOptions) :
    Scheduler β × Except (SchedulerProblem β) Nat :=
  match s.refusal? tune with
  | some p => (s, .error p)
  | none =>
    ({ s with queue := s.queue ++ [⟨s.nextId, tune, options⟩], nextId := s.nextId + 1 },
      .ok s.nextId)

/-- Halts playing and drops all slots. -/
def stop (s : Scheduler β) : Scheduler β :=
  { s with queue := [], current := none, paused := false, position := 0.0, stopped := true }

def pause (s : Scheduler β) : Scheduler β :=
  { s with paused := s.paused || s.current.isSome }

def resume (s : Scheduler β) : Scheduler β := { s with paused := false }

/-- Leaves the current slot for the next one, and gives the id of the one left. -/
def skip (s : Scheduler β) : Scheduler β × Option Nat := (s.advanceQueue, s.current.map (·.id))

def isCurrent (s : Scheduler β) (id : Nat) : Bool := s.current.any (·.id = id)

/-- Drops a slot; the current one is skipped. -/
def remove (s : Scheduler β) (id : Nat) : Scheduler β × Except (SchedulerProblem β) Unit :=
  if s.isCurrent id then (s.advanceQueue, .ok ())
  else if s.queue.any (·.id = id) then
    ({ s with queue := s.queue.eraseP (·.id = id) }, .ok ())
  else (s, .error (.unknownSlot id))

/-- Drops the slots of the queue, and gives their number. -/
def clear (s : Scheduler β) : Scheduler β × Nat := ({ s with queue := [] }, s.queue.length)

def setVolume (s : Scheduler β) (volume : Float32) :
    Scheduler β × Except (SchedulerProblem β) Unit :=
  if isVolume volume then ({ s with volume }, .ok ()) else (s, .error (.badVolume volume))

def setTempo (s : Scheduler β) (tempo : β) : Scheduler β × Except (SchedulerProblem β) Unit :=
  if isTempo tempo then ({ s with tempo }, .ok ()) else (s, .error (.badTempo tempo))

def requestShutdown (s : Scheduler β) : Scheduler β := { s with shutDown := true }

def status (s : Scheduler β) : PlaybackStatus β where
  queueSize := s.queue.length
  playing := s.current.isSome && !s.paused
  paused := s.paused
  volume := s.volume
  tempo := s.tempo
  current := s.current.map Slot.info
  position := s.position

def slots (s : Scheduler β) : List (Slot β) := s.current.toList ++ s.queue

def list (s : Scheduler β) : List (SlotInfo β) := s.slots.map Slot.info

@[simp] theorem slots_advanceQueue (s : Scheduler β) : s.advanceQueue.slots = s.queue := by
  simp only [slots, advanceQueue]
  cases s.queue <;> rfl

end Scheduler
end AbcTune
