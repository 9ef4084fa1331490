/-! # Messages and backends

Playing a tune comes down to messages: keys go down and up, and channels change their program. A
backend takes each message or refuses it. One records what it takes and the other writes it out.
-/
namespace AbcTune

/-- A message to a backend; channels count from 0. -/
inductive Message where
  | noteOn (channel pitch velocity : Nat)
  | noteOff (channel pitch : Nat)
  | programChange (channel program : Nat)
  deriving DecidableEq, Repr

inductive Refusal where
  | unavailable (reason : String)
  | rejected (reason : String)
  deriving DecidableEq, Repr

def Refusal.message : Refusal → String
  | .unavailable reason => "Backend unavailable: " ++ reason
  | .rejected reason => "Backend rejected message: " ++ reason

/-- What playing has sent, and what became of it. -/
inductive Emission where
  | sent (message : Message) (refusal : Option Refusal)
  /-- All places for sounding notes are taken, and the oldest is released. -/
  | crowded (pitch : Nat)
  deriving DecidableEq, Repr

/-- The message, if it was sent and taken. -/
def Emission.taken? : Emission → Option Message
  | .sent m none => some m
  | _ => none

def Emission.taken (es : List Emission) : List Message := es.filterMap Emission.taken?

theorem Emission.taken_append (es fs : List Emission) : taken (es ++ fs) = taken es ++ taken fs :=
  List.filterMap_append

/-- A backend at one moment. -/
structure Backend where
  /-- Whether it takes messages at all. -/
  available : Bool
  /-- Why it refuses a message, if it does. -/
  refusal? : Message → Option Refusal

namespace Backend

def accepting : Backend := ⟨true, fun _ => none⟩

/-- The recording backend takes every message while it is available, and else none. -/
def recording (available : Bool) : Backend :=
  ⟨available, fun _ => if available then none else some (.unavailable "recording disabled")⟩

def send (b : Backend) (m : Message) : Emission := .sent m (b.refusal? m)

end Backend

/-- Keys that are down after one more message, by channel and pitch. A note-off lifts one key. -/
def Message.press (down : List (Nat × Nat)) : Message → List (Nat × Nat)
  | .noteOn channel pitch _ => down ++ [(channel, pitch)]
  | .noteOff channel pitch => down.erase (channel, pitch)
  | .programChange _ _ => down

/-- The keys that are down after a list of messages. -/
def Message.sounding (ms : List Message) : List (Nat × Nat) := ms.foldl Message.press []

end AbcTune
