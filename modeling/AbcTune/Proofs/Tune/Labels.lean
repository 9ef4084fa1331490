import AbcTune.Proofs.Field.Course
import AbcTune.Proofs.Music.Labels
import AbcTune.Proofs.Tune.Reading

/-! # The parts of a reading

Fields and directives create voices and change their settings, and leave the notes alone. So every
note of a reading is in a part that was started, or in none.
-/
namespace AbcTune

namespace FieldState

variable {s s' : FieldState} {R : List (Note Float) → Prop}

theorem voices_mapHeader (s : FieldState) (f : Heading Float → Heading Float) :
    (s.mapHeader f).voices = s.voices := by
  unfold mapHeader
  split <;> rfl

theorem voices_endHeader (s : FieldState) : s.endHeader.voices = s.voices := by
  unfold endHeader
  split <;> rfl

theorem eachNotes_configures (h : s.voices.EachNotes R) (hnil : R []) {voices : VoiceTable Float}
    (hvoices : s.voices.Configures voices) : voices.EachNotes R := by
  rcases hvoices with rfl | ⟨a,rfl⟩
  · exact h
  · exact (h.ensureSettings hnil).define hnil _ a

theorem eachNotes_applyNamed (h : s.voices.EachNotes R) (hnil : R []) (name : Char)
    (token : Token) : (s.applyNamed name token).1.voices.EachNotes R := by
  generalize hp : s.applyNamed name token = p
  cases course_of_applyNamed hp with
  | rejected | noted | tempo | lateTempo | sequence | part => exact h
  | meter | unitLength => exact (voices_mapHeader _ _).symm ▸ h
  | voice id a => exact h.define hnil id a
  | switched id voices _ _ hvoices =>
    rcases hvoices with rfl | ⟨a,rfl⟩
    · exact h.switchTo hnil id
    · exact (h.define hnil id a).switchTo hnil id
  | key _ hkey =>
    cases hkey with
    | unknown | stray => exact h
    | applied key a voices _ _ hvoices =>
      exact (voices_endHeader _).symm ▸ eachNotes_configures h hnil hvoices

theorem eachNotes_applyField (h : s.voices.EachNotes R) (hnil : R []) (token : Token) :
    (s.applyField token).1.voices.EachNotes R := by
  unfold applyField
  split
  · exact eachNotes_applyNamed h hnil _ token
  · exact eachNotes_applyNamed h hnil _ token
  · exact h

theorem eachNotes_applyDirective (h : s.voices.EachNotes R) (hnil : R []) (text : Text)
    (line : Nat) : (s.applyDirective text line).1.voices.EachNotes R := by
  rcases s.applyDirective_cases text line with ⟨d,heq⟩ | ⟨voices,hvoices,heq⟩
  · rw [heq]
    exact h
  · rw [heq]
    exact eachNotes_configures h hnil hvoices

end FieldState

namespace TuneReading

variable {r r' : TuneReading}

/-- Every note is in a part that was started, or in none. -/
def Labeled (r : TuneReading) : Prop :=
  r.music.Marked fun part => ∀ label ∈ part, label ∈ r.sections.map Section.label

theorem labeled_initial (hasHeader : Bool) : (TuneReading.initial hasHeader).Labeled :=
  MusicState.marked_initial fun _ hlabel => absurd hlabel (Option.not_mem_none _)

theorem Labeled.report (h : r.Labeled) (ds : List Diagnostic) : (r.report ds).Labeled := h

theorem Labeled.startPart (h : r.Labeled) (label : Char) : (r.startPart label).Labeled := by
  have himp : ∀ part : Option Char, (∀ l ∈ part, l ∈ r.sections.map Section.label) →
      ∀ l ∈ part, l ∈ (r.startPart label).sections.map Section.label := by
    intro part hpart l hl
    simp only [TuneReading.startPart, List.map_append]
    exact List.mem_append_left _ (hpart l hl)
  have hmarked := h.imp himp
  constructor
  · exact hmarked.notes.syncAll
  · intro l hl
    cases Option.mem_some_iff.mp hl
    simp [TuneReading.startPart]

theorem Labeled.readField (h : r.Labeled) (token : Token) : (r.readField token).Labeled := by
  have hfield : (r.setFieldState (r.fieldState.applyField token).1).Labeled :=
    ⟨FieldState.eachNotes_applyField h.notes inParts_nil token,h.part⟩
  unfold TuneReading.readField
  dsimp only
  split
  · exact hfield.startPart _
  · exact hfield
  · exact hfield

theorem Labeled.readDirective (h : r.Labeled) (text : Text) (line : Nat) :
    (r.readDirective text line).Labeled :=
  ⟨FieldState.eachNotes_applyDirective h.notes inParts_nil text line,h.part⟩

theorem labeled_kept : Kept (fun _ => True) Labeled where
  report ds h := h.report ds
  field _ h := h.readField _
  directive text line h := h.readDirective text line
  music hhandle h := h.handle _ _ _ _ hhandle
  beginMusic h := h
  endMusic h := ⟨h.notes,h.part⟩

theorem labeled_ofSource {source : Text} (hread : ofSource source = .ok r) : r.Labeled :=
  labeled_kept.ofSource labeled_initial (fun _ _ _ _ _ => trivial) hread

end TuneReading
end AbcTune
