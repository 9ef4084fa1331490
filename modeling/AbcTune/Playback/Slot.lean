import AbcTune.Tune

/-! # Slots

A slot is a tune waiting to be played or being played. It never changes once it is queued.
-/
namespace AbcTune

structure SlotOptions where
  /-- Whether the tune starts over at its end. -/
  looping : Bool
  /-- Milliseconds of silence after the tune, where they are not the usual ones. -/
  gap : Option Nat
  deriving DecidableEq, Repr

namespace SlotOptions

def once : SlotOptions := ⟨false, none⟩

def forever : SlotOptions := ⟨true, none⟩

end SlotOptions

structure Slot (β : Type) where
  id : Nat
  tune : Tune β
  options : SlotOptions

/-- What is told of a slot. -/
structure SlotInfo (β : Type) where
  id : Nat
  title : String
  looping : Bool
  events : Nat
  durationBeats : β

namespace Slot

variable {β : Type} [Beats β]

def title (s : Slot β) : String := s.tune.displayTitle

def info (s : Slot β) : SlotInfo β where
  id := s.id
  title := s.title
  looping := s.options.looping
  events := s.tune.events.length
  durationBeats := s.tune.durationBeats

def gap (s : Slot β) (usual : Nat) : Nat := s.options.gap.getD usual

end Slot
end AbcTune
