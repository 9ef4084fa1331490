import AbcTune.Proofs.Tune.Parts

/-! # Sequences with a label too many

The labels of a part sequence are looked up before any part is laid out. A sequence with a label
that no part was written for is as good as none: the notes stay in written order, and the length
and the events are made from them as if the header had asked for nothing.
-/
namespace AbcTune.Tune

variable {β : Type} [Beats β] {t : Tune β} {ranges : List (PartRange β)}
  {sections : List (Section β)} {sequence : List Char} {label : Char}

/-- A tune that asks for no order of its parts. -/
def unsequenced (t : Tune β) : Tune β :=
  { t with heading := { t.heading with partSequence := none } }

/-- The first label of a sequence that no part was written for. -/
def undefined? (sections : List (Section β)) (sequence : List Char) : Option Char :=
  sequence.find? (· ∉ sections.map Section.label)

omit [Beats β] in
theorem undefined?_cons (sections : List (Section β)) (label : Char) (rest : List Char) :
    undefined? sections (label :: rest) =
      if label ∈ sections.map Section.label then undefined? sections rest else some label := by
  unfold undefined?
  split
  · next h => exact List.find?_cons_of_neg (by simpa using h)
  · next h => exact List.find?_cons_of_pos (by simpa using h)

omit [Beats β] in
theorem find?_label_eq_none_iff :
    ranges.find? (·.label = label) = none ↔ label ∉ ranges.map PartRange.label := by
  simp [List.find?_eq_none]

omit [Beats β] in
/-- Looking up the labels of a sequence fails at the first one without a part, if there is one. -/
theorem resolveParts_cases (sequence : List Char)
    (hlabels : ranges.map PartRange.label = sections.map Section.label) :
    (∃ label, undefined? sections sequence = some label ∧
      resolveParts ranges sequence = .error label) ∨
    (undefined? sections sequence = none ∧ ∃ parts, resolveParts ranges sequence = .ok parts) := by
  induction sequence with
  | nil => exact .inr ⟨rfl,[],rfl⟩
  | cons label rest ih =>
    rw [undefined?_cons, resolveParts]
    cases hfind : ranges.find? (·.label = label) with
    | none =>
      rw [find?_label_eq_none_iff, hlabels] at hfind
      exact .inl ⟨label,if_neg hfind,rfl⟩
    | some r =>
      have hdefined : label ∈ sections.map Section.label := by
        by_contra hnot
        rw [← hlabels, ← find?_label_eq_none_iff, hfind] at hnot
        cases hnot
      rw [if_pos hdefined]
      rcases ih with ⟨first,hfirst,hrest⟩ | ⟨hnone,parts,hrest⟩
      · exact .inl ⟨first,hfirst,by simp [hrest, Except.map]⟩
      · exact .inr ⟨hnone,r :: parts,by simp [hrest, Except.map]⟩

/-- Parts are laid out unless a label has none, and then the tune stays as it is. -/
theorem arrangeParts_cases (hsequence : t.heading.partSequence = some sequence)
    (sections : List (Section β)) (line : Nat) :
    (∃ label, undefined? sections sequence = some label ∧
      t.arrangeParts sections line = (t,some (.structural line (.undefinedPart label)))) ∨
    (undefined? sections sequence = none ∧ (t.arrangeParts sections line).2 = none) := by
  unfold arrangeParts
  rw [hsequence]
  cases sequence with
  | nil => exact .inr ⟨rfl,rfl⟩
  | cons first rest =>
    have hlabels := map_label_partRanges t.length sections
    unfold expandParts
    dsimp only
    rcases resolveParts_cases (first :: rest) hlabels with ⟨label,hlabel,hparts⟩ |
      ⟨hnone,parts,hparts⟩
    · exact .inl ⟨label,hlabel,by rw [hparts]; rfl⟩
    · exact .inr ⟨hnone,by rw [hparts]; rfl⟩

theorem withImplicitVoice_unsequenced (t : Tune β) (id : String) :
    t.unsequenced.withImplicitVoice id = (t.withImplicitVoice id).unsequenced := by
  unfold withImplicitVoice
  change (if t.voices.isEmpty then _ else _) = _
  split <;> rfl

/-- Without a sequence the notes are merged as they were written. -/
theorem assemble_unsequenced (t : Tune β) (id : String) (sections : List (Section β))
    (line : Nat) :
    let written := { t.withImplicitVoice id with
      length := writtenEnd (t.withImplicitVoice id).voices }
    t.unsequenced.assemble id sections line =
      ({ written.unsequenced with events := written.mergeVoices },none) := by
  unfold assemble
  rw [withImplicitVoice_unsequenced]
  rfl

/-- A tune is told the first label of its sequence that no part was written for, and of nothing if
there is none. If there is one, whatever its place, then the parts of the others are not laid out
either: but for the sequence itself the tune is the one assembled without it. -/
theorem assemble_undefined (hsequence : t.heading.partSequence = some sequence) (id : String)
    (sections : List (Section β)) (line : Nat) :
    (t.assemble id sections line).2 =
        (sequence.find? (· ∉ sections.map Section.label)).map
          (fun label => .structural line (.undefinedPart label)) ∧
      ∀ label ∈ sequence, label ∉ sections.map Section.label →
        (t.assemble id sections line).2 ≠ none ∧
          (t.unsequenced.assemble id sections line).2 = none ∧
          (t.assemble id sections line).1 =
            { (t.unsequenced.assemble id sections line).1 with heading := t.heading } := by
  let written : Tune β :=
    { t.withImplicitVoice id with length := writtenEnd (t.withImplicitVoice id).voices }
  have hheading : written.heading = t.heading := heading_withImplicitVoice t id
  have hassemble : t.assemble id sections line =
      ({ (written.arrangeParts sections line).1 with
          events := (written.arrangeParts sections line).1.mergeVoices },
        (written.arrangeParts sections line).2) := rfl
  rw [hassemble, assemble_unsequenced, ← hheading]
  rw [← hheading] at hsequence
  rcases arrangeParts_cases hsequence sections line with ⟨label,hlabel,harranged⟩ |
    ⟨hnone,harranged⟩
  · unfold undefined? at hlabel
    rw [harranged, hlabel]
    exact ⟨rfl,fun _ _ _ => ⟨nofun,rfl,rfl⟩⟩
  · unfold undefined? at hnone
    rw [hnone]
    refine ⟨harranged,fun label hlabel hundefined => ?_⟩
    -- there is no such label, as the look-up would have found it
    have hall := List.find?_eq_none.mp hnone label hlabel
    exact absurd hundefined (by simpa using hall)

/-- The middle one of three labels has no part. -/
def undefinedBetween : Text := "X:1\nP:BQA\nL:1/4\nK:C\nP:A\nC D\nP:B\nE\n".toList

/-- The notes are not even brought into the order of the labels that are defined. -/
theorem assemble_undefined_between :
    ∃ r : TuneReading, TuneReading.ofSource undefinedBetween = .ok r ∧
      r.sections.map Section.label = ['A', 'B'] ∧
      (r.draft.assemble "1" r.sections 2).2 = some (.structural 2 (.undefinedPart 'Q')) ∧
      (r.draft.assemble "1" r.sections 2).1 =
        { (r.draft.unsequenced.assemble "1" r.sections 2).1 with heading := r.draft.heading } ∧
      ((r.draft.assemble "1" r.sections 2).1.voices.flatMap (·.notes)).map (·.pitch) =
        [60, 62, 64] := by
  have hevaluated : (TuneReading.ofSource undefinedBetween).toOption.map
      (fun r => (r.draft.heading.partSequence,r.sections.map Section.label,
        ((r.draft.unsequenced.assemble "1" r.sections 2).1.voices.flatMap (·.notes)).map
          (·.pitch))) =
      some (some ['B', 'Q', 'A'],['A', 'B'],[60, 62, 64]) := by
    decide +kernel
  obtain ⟨r,hread,hr⟩ := exists_of_toOption_map hevaluated
  simp only [Prod.mk.injEq] at hr
  obtain ⟨hsequence,hlabels,hpitches⟩ := hr
  obtain ⟨hproblem,hsame⟩ := assemble_undefined hsequence "1" r.sections 2
  obtain ⟨-,-,htune⟩ := hsame 'Q' (by decide) (hlabels ▸ by decide)
  rw [hlabels] at hproblem
  refine ⟨r,hread,hlabels,hproblem,htune,?_⟩
  rw [htune]
  exact hpitches

end AbcTune.Tune
