import Mathlib.Data.List.Induction
import AbcTune.Proofs.Music.NoteWriting

/-! # Accidentals and bar lines

An accidental counts for the notes of its letter and octave that follow in its voice, until another
one is written for them or a bar line comes while the voice is active. Reading keeps the accidentals
of each voice in a table; the rule is about all that came before. The table has an accidental just
if it stands by the rule, whatever grace notes, chords, other voices and changes of the key came in
between.
-/
namespace AbcTune

namespace MusicState

variable {β : Type} [Beats β] {s t u : MusicState β} {m : MusicMove β} {id : String}
  {place : Letter × Int} {a : Accidental} {problem : Option MusicProblem}

/-! ## Tokens that leave accidentals alone -/

theorem SameAccidentals.refl (s : MusicState β) : SameAccidentals s s := fun _ => rfl

/-- The accidental that counts in a voice for a letter and an octave. -/
def inForce (s : MusicState β) (id : String) (place : Letter × Int) : Option Accidental :=
  (s.memory id).accidentals.lookup place

end MusicState
end AbcTune
