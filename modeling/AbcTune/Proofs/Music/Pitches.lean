import AbcTune.Note
import AbcTune.Token

/-! # Pitches of plain music

Where music is made of notes, rests and bar lines, the pitch of a note depends on the notes before
it in its bar alone. Accidentals that stand when the music starts are heard up to its first bar
line, in notes that have no accidental of their own and follow none.
-/
namespace AbcTune

/-- What counts for the pitches of plain music. -/
inductive Item where
  | note (w : WrittenNote Float)
  | barLine

/-- Accidentals in force, by letter and octave, the latest first. -/
abbrev Accidentals := List ((Letter × Int) × Accidental)

namespace WrittenNote

/-- The place of a note on the staff, for which an accidental counts. -/
def place (w : WrittenNote Float) : Letter × Int := (w.letter,w.octave)

/-- The accidentals in force after a note. -/
def mark (w : WrittenNote Float) (accidentals : Accidentals) : Accidentals :=
  match w.accidental with
  | some a => (w.place,a) :: accidentals
  | none => accidentals

/-- The pitch of a note by its own accidental, else by one in force, else by the key. -/
def pitchAfter (w : WrittenNote Float) (accidentals : Accidentals) (key : Key) : Int :=
  w.pitch (w.accidental <|> accidentals.lookup w.place <|> key.accidental? w.letter)

end WrittenNote

namespace Item

/-- The note or bar line that a token stands for. -/
def read? (p : TokenKind × Text) : Option Item :=
  match p.1 with
  | .note => (WrittenNote.read? p.2).map .note
  | .bar | .repeatStart | .repeatEnd => some .barLine
  | _ => none

def accidentalsAfter (accidentals : Accidentals) : List Item → Accidentals
  | [] => accidentals
  | .note w :: rest => accidentalsAfter (w.mark accidentals) rest
  | .barLine :: rest => accidentalsAfter [] rest

def pitches (key : Key) (accidentals : Accidentals) : List Item → List Int
  | [] => []
  | .note w :: rest => w.pitchAfter accidentals key :: pitches key (w.mark accidentals) rest
  | .barLine :: rest => pitches key [] rest

theorem accidentalsAfter_append (inForce : Accidentals) (xs ys : List Item) :
    accidentalsAfter inForce (xs ++ ys) = accidentalsAfter (accidentalsAfter inForce xs) ys := by
  induction xs generalizing inForce with
  | nil => rfl
  | cons x xs ih =>
    cases x with
    | note w => exact ih (w.mark inForce)
    | barLine => exact ih []

theorem pitches_append (key : Key) (inForce : Accidentals) (xs ys : List Item) :
    pitches key inForce (xs ++ ys) =
      pitches key inForce xs ++ pitches key (accidentalsAfter inForce xs) ys := by
  induction xs generalizing inForce with
  | nil => rfl
  | cons x xs ih =>
    cases x with
    | note w => exact congrArg _ (ih (w.mark inForce))
    | barLine => exact ih []

/-! ## Accidentals from before -/

/-- The notes before the first bar line. -/
def openingBar : List Item → List (WrittenNote Float)
  | .note w :: rest => w :: openingBar rest
  | _ => []

theorem openingBar_eq_nil {key : Key} {inForce : Accidentals} {items : List Item}
    (h : pitches key inForce items = []) : openingBar items = [] := by
  cases items with
  | nil => rfl
  | cons item rest =>
    cases item with
    | note w => cases h
    | barLine => rfl

end Item

/-- No note of a bar sounds another pitch because of the accidentals in force when it starts: a
note without an accidental of its own, before which the bar has none for its place, sounds the
same as by the key. -/
def Undisturbed (sound : Int → Nat) (key : Key) (inForce : Accidentals)
    (bar : List (WrittenNote Float)) : Prop :=
  ∀ before w after, bar = before ++ w :: after → w.accidental = none →
    (∀ u ∈ before, u.accidental ≠ none → u.place ≠ w.place) →
      ∀ a, inForce.lookup w.place = some a →
        sound (w.pitch (some a)) = sound (w.pitch (key.accidental? w.letter))

theorem undisturbed_nil {sound : Int → Nat} {key : Key} {bar : List (WrittenNote Float)} :
    Undisturbed sound key [] bar := fun _ _ _ _ _ _ _ h => by cases h

namespace Item

variable {sound : Int → Nat} {key : Key} {inForce : Accidentals}

theorem mark_append (w : WrittenNote Float) (marks : Accidentals) :
    w.mark (marks ++ inForce) = w.mark marks ++ inForce := by
  unfold WrittenNote.mark
  cases w.accidental <;> rfl

theorem lookup_mark_eq_none (w : WrittenNote Float) (marks : Accidentals) (p : Letter × Int) :
    (w.mark marks).lookup p = none ↔
      (w.accidental ≠ none → w.place ≠ p) ∧ marks.lookup p = none := by
  unfold WrittenNote.mark
  cases w.accidental with
  | none => simp
  | some a =>
    rw [List.lookup_cons]
    by_cases hp : p = w.place
    · simp [hp]
    · rw [beq_false_of_ne hp]
      exact ⟨fun h => ⟨fun _ => Ne.symm hp,h⟩,And.right⟩

/-- The pitch of one note, where accidentals from before come behind those of the bar. -/
theorem sound_pitchAfter_iff (w : WrittenNote Float) (marks : Accidentals) :
    sound (w.pitchAfter (marks ++ inForce) key) = sound (w.pitchAfter marks key) ↔
      (w.accidental = none → marks.lookup w.place = none → ∀ a, inForce.lookup w.place = some a →
        sound (w.pitch (some a)) = sound (w.pitch (key.accidental? w.letter))) := by
  unfold WrittenNote.pitchAfter
  rw [List.lookup_append]
  cases w.accidental with
  | some a => simp
  | none =>
    cases marks.lookup w.place with
    | some a => simp
    | none =>
      cases inForce.lookup w.place with
      | none => simp
      | some a => simp

/-- With some accidentals of the bar written already, and others in force from before. -/
theorem map_pitches_eq_iff_after (marks : Accidentals) (items : List Item) :
    (pitches key (marks ++ inForce) items).map sound = (pitches key marks items).map sound ↔
      ∀ before w after, openingBar items = before ++ w :: after → w.accidental = none →
        marks.lookup w.place = none → (∀ u ∈ before, u.accidental ≠ none → u.place ≠ w.place) →
          ∀ a, inForce.lookup w.place = some a →
            sound (w.pitch (some a)) = sound (w.pitch (key.accidental? w.letter)) := by
  -- each note of the bar adds to `marks`; at a bar line both sides have nothing in force
  induction items generalizing marks with
  | nil =>
    apply iff_of_true rfl
    intro before w after h
    exact absurd h (by simp [openingBar])
  | cons item rest ih =>
    cases item with
    | barLine =>
      apply iff_of_true rfl
      intro before w after h
      exact absurd h (by simp [openingBar])
    | note u =>
      rw [pitches, pitches, List.map_cons, List.map_cons, List.cons_eq_cons, mark_append, ih,
        sound_pitchAfter_iff]
      constructor
      · rintro ⟨hfirst,hrest⟩ before w after h hw hmarks hbefore
        cases before with
        | nil =>
          obtain ⟨rfl,-⟩ := List.cons.inj h
          exact hfirst hw hmarks
        | cons u' before =>
          obtain ⟨rfl,htail⟩ := List.cons.inj h
          refine hrest before w after htail hw ?_ fun x hx => hbefore x (List.mem_cons_of_mem _ hx)
          exact (lookup_mark_eq_none u marks w.place).mpr ⟨hbefore u List.mem_cons_self,hmarks⟩
      · intro hall
        refine ⟨fun hu hmarks => hall [] u _ rfl hu hmarks (by simp),?_⟩
        intro before w after h hw hmarks hbefore
        obtain ⟨hu,hmarks⟩ := (lookup_mark_eq_none u marks w.place).mp hmarks
        apply hall (u :: before) w after (congrArg _ h) hw hmarks
        intro x hx
        rcases List.mem_cons.mp hx with rfl | hx
        · exact hu
        · exact hbefore x hx

/-- Music sounds the same after some accidentals as after none exactly when they do not disturb
its opening bar. -/
theorem map_pitches_eq_iff (items : List Item) :
    (pitches key inForce items).map sound = (pitches key [] items).map sound ↔
      Undisturbed sound key inForce (openingBar items) := by
  refine Iff.trans (map_pitches_eq_iff_after [] items) ?_
  simp [Undisturbed]

end Item
end AbcTune
