import AbcTune.Proofs.Token.LengthText
import AbcTune.Proofs.Token.Tiling

/-! # Notes as they are written

A written note is an accidental, a letter, octave marks and a length. Cutting a line into tokens and
reading a note go through these separately. Both take the same texts, part them at the same places,
and leave alone what cannot belong to the note.
-/
namespace AbcTune

variable {t rest : Text}

/-! ## Written notes -/

/-- A note as it is written: an accidental, a capital or small letter, octave marks and a
length. -/
structure NoteText where
  accidental : Option Accidental
  letter : Letter
  small : Bool
  marks : Text
  length : LengthText
  isOctaveMark_marks : ∀ c ∈ marks, WrittenNote.isOctaveMark c = true

/-- The character of a letter. -/
def letterChar (letter : Letter) (small : Bool) : Char :=
  if small then letter.toChar.toLower else letter.toChar

/-- The signs of an accidental, if there is one. -/
def accidentalText (accidental : Option Accidental) : Text :=
  (accidental.map Accidental.marks).getD []

namespace NoteText

/-- What stands behind the letter. -/
def tail (n : NoteText) : Text := n.marks ++ n.length.text

def text (n : NoteText) : Text :=
  accidentalText n.accidental ++ letterChar n.letter n.small :: n.tail

/-- Small letters are an octave above capital ones, each apostrophe is an octave up and each comma
an octave down. -/
def octave (n : NoteText) : Int :=
  (if n.small then 1 else 0) + (n.marks.count '\'' - n.marks.count ',')

/-- A text may stand behind a note and not belong to it: it starts with neither a digit nor a slash,
nor with an octave mark if no length is written. -/
def EndsBefore (n : NoteText) (rest : Text) : Prop :=
  ∀ c ∈ rest.head?, c.isDigit = false ∧ c ≠ '/' ∧
    (n.length.text = [] → WrittenNote.isOctaveMark c = false)

end NoteText

namespace NoteText

variable (n : NoteText)

theorem endsBefore_nil : n.EndsBefore [] := fun _ hc => by cases hc

/-- No octave mark follows those of a note. -/
theorem not_isOctaveMark_length (h : n.EndsBefore rest) :
    ∀ c ∈ (n.length.text ++ rest).head?, WrittenNote.isOctaveMark c = false := by
  intro c hc
  rw [List.head?_append, Option.mem_def, Option.or_eq_some_iff] at hc
  rcases hc with hc | ⟨hnil,hc⟩
  · have hmem := n.length.isDigit_or_eq_of_mem_text (List.mem_of_mem_head? hc)
    by_contra hmark
    simp only [WrittenNote.isOctaveMark, Bool.not_eq_false, Bool.or_eq_true,
      decide_eq_true_eq] at hmark
    revert hmem
    rcases hmark with rfl | rfl <;> decide
  · exact (h c hc).2.2 (List.head?_eq_none_iff.mp hnil)

end NoteText

namespace Token

end Token

theorem take_accidentalText (accidental : Option Accidental) (letter : Letter) (small : Bool)
    (t : Text) : Accidental.take (accidentalText accidental ++ letterChar letter small :: t) =
      (accidental,letterChar letter small :: t) := by
  cases accidental with
  | none => cases letter <;> cases small <;> rfl
  | some a => cases a <;> cases letter <;> cases small <;> rfl

theorem ofChar?_letterChar (letter : Letter) (small : Bool) :
    Letter.ofChar? (letterChar letter small) = some letter ∧
      (letterChar letter small).isLower = small := by
  cases letter <;> cases small <;> exact ⟨rfl,rfl⟩

/-- A note is read with its accidental, its letter and its octave whenever its length is read. -/
theorem NoteText.read?_text {β : Type} [Beats β] (n : NoteText) :
    (WrittenNote.read? n.text : Option (WrittenNote β)) =
      (readLength? n.length.text).map fun length =>
        ⟨n.accidental,n.letter,n.octave,length⟩ := by
  have hmarks := n.not_isOctaveMark_length n.endsBefore_nil
  rw [List.append_nil] at hmarks
  obtain ⟨hletter,hlower⟩ := ofChar?_letterChar n.letter n.small
  rw [WrittenNote.read?, text, take_accidentalText]
  simp only [tail, takeWhile_run n.isOctaveMark_marks hmarks,
    dropWhile_run n.isOctaveMark_marks hmarks, hletter, hlower]
  cases (readLength? n.length.text : Option β) <;> rfl

/-! ### Every token of a note -/

namespace Token

end Token

end AbcTune
