import AbcTune.Proofs.Field.Course
import AbcTune.Proofs.Tune.Assembly
import AbcTune.Proofs.Tune.Reading

/-! # Titles

Only a title field adds to the titles of a tune, and it adds the value that it has in its line. So
every title is on one line, whatever the notation.
-/
namespace AbcTune

namespace FieldState

variable {s : FieldState}

theorem titles_mapHeader {f : Heading Float → Heading Float}
    (hf : ∀ h, (f h).titles = h.titles) :
    (s.mapHeader f).heading.titles = s.heading.titles := by
  unfold mapHeader
  split
  · exact hf s.heading
  · rfl

theorem titles_endHeader (s : FieldState) : s.endHeader.heading.titles = s.heading.titles := by
  unfold endHeader
  split <;> rfl

/-- A title is added, and nothing else is done to the titles. -/
theorem titles_applyNamed (s : FieldState) (name : Char) (token : Token) :
    (s.applyNamed name token).1.heading.titles =
      s.heading.titles ++ if name = 'T' then [String.ofList (Text.trim token.text)] else [] := by
  by_cases hname : name = 'T'
  · subst hname
    rfl
  · rw [if_neg hname, List.append_nil]
    generalize hp : s.applyNamed name token = p
    cases course_of_applyNamed hp with
    | noted f _ _ htitles =>
      refine (htitles s.heading).trans ?_
      rw [if_neg hname, List.append_nil]
    | meter | unitLength => exact titles_mapHeader fun _ => rfl
    | rejected | tempo | lateTempo | sequence | part | voice | switched => rfl
    | key _ hkey =>
      cases hkey with
      | unknown | stray => rfl
      | applied => exact titles_endHeader _

theorem titles_applyDirective (s : FieldState) (text : Text) (line : Nat) :
    (s.applyDirective text line).1.heading.titles = s.heading.titles := by
  rcases s.applyDirective_cases text line with ⟨d,heq⟩ | ⟨voices,-,heq⟩ <;> rw [heq]

theorem mem_titles_applyField {token : Token} {title : String}
    (h : title ∈ (s.applyField token).1.heading.titles) :
    title ∈ s.heading.titles ∨ title = String.ofList (Text.trim token.text) := by
  have hnamed (name : Char) (h : title ∈ (s.applyNamed name token).1.heading.titles) :
      title ∈ s.heading.titles ∨ title = String.ofList (Text.trim token.text) := by
    rw [titles_applyNamed] at h
    rcases List.mem_append.mp h with h | h
    · exact .inl h
    · split at h
      · exact .inr (List.mem_singleton.mp h)
      · cases h
  unfold applyField at h
  split at h
  · exact hnamed _ h
  · exact hnamed _ h
  · exact .inl h

end FieldState

/-- Every title is on one line. -/
def Heading.Titled (h : Heading Float) : Prop := ∀ title ∈ h.titles, '\n' ∉ title.toList

namespace TuneReading

variable {r : TuneReading}

theorem heading_readField (r : TuneReading) (token : Token) :
    (r.readField token).settings.heading = (r.fieldState.applyField token).1.heading := by
  unfold readField
  dsimp only
  split <;> rfl

theorem titled_kept :
    Kept (fun token => '\n' ∉ token.text) fun r => r.settings.heading.Titled where
  report _ h := h
  field := by
    intro r token htoken h title htitle
    rw [heading_readField] at htitle
    rcases FieldState.mem_titles_applyField htitle with hold | rfl
    · exact h title hold
    · rw [String.toList_ofList]
      exact fun hfeed => htoken ((Token.trim_sublist token.text).subset hfeed)
  directive := by
    intro r text line h title htitle
    change title ∈ (r.fieldState.applyDirective text line).1.heading.titles at htitle
    rw [FieldState.titles_applyDirective] at htitle
    exact h title htitle
  music _ h := h
  beginMusic h := h
  endMusic h := h

end TuneReading

/-- A tune that is read from notation has its titles on one line each. -/
theorem Tune.titled_of_read {source : Text} {t : Tune Float} (h : read source = .ok t) :
    t.heading.Titled := by
  rw [read_eq] at h
  obtain ⟨r,hread,rfl⟩ := exists_of_map_ok h
  have hheading : r.finish.heading = r.settings.heading := heading_assemble r.draft _ _ _
  rw [hheading]
  refine TuneReading.titled_kept.ofSource ?_ ?_ hread
  · exact fun _ _ htitle => absurd htitle List.not_mem_nil
  · intro t line ht token htoken hfeed
    exact ht ((Token.sublist_of_mem_tokenize htoken).subset hfeed)

end AbcTune
