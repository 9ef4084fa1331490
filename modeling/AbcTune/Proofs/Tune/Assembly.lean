import AbcTune.Proofs.Music.Plain
import AbcTune.Tune.Reading

/-! # Tunes in one voice

Where only one voice has notes, and none of them comes before another, the notes of the tune are
those of the voice in the order of writing.
-/
namespace AbcTune

open Number

/-- Notes in the order of their starts stay where they are. -/
theorem InTime.sortNotes_eq {notes : List (Note Float)} {cursor : Float} (h : InTime notes cursor) :
    Tune.sortNotes notes = notes := by
  refine List.mergeSort_of_pairwise (h.order.imp_of_mem fun {m n} hm hn hle => ?_)
  exact (sortsBefore_iff (h.starts m hm).1 (h.starts n hn).1).mpr hle

/-! ## Voices without notes -/

theorem flatMap_notes_eq_nil {voices : List (Voice Float)} (h : ∀ w ∈ voices, w.notes = []) :
    voices.flatMap (·.notes) = [] := List.flatMap_eq_nil_iff.mpr h

theorem flatMap_notes_eq {voices : List (Voice Float)} {v : Voice Float}
    (hids : (voices.map (·.id)).Nodup) (hv : v ∈ voices)
    (hothers : ∀ w ∈ voices, w.id ≠ v.id → w.notes = []) : voices.flatMap (·.notes) = v.notes := by
  obtain ⟨before,after,rfl⟩ := List.append_of_mem hv
  rw [List.map_append, List.map_cons, List.nodup_append, List.nodup_cons] at hids
  obtain ⟨-,⟨hafter,-⟩,hbefore⟩ := hids
  have hnone (w : Voice Float) (hw : w ∈ before ∨ w ∈ after) : w.notes = [] := by
    rcases hw with hw | hw
    · refine hothers w (List.mem_append_left _ hw) ?_
      exact hbefore w.id (List.mem_map_of_mem hw) v.id List.mem_cons_self
    · apply hothers w (List.mem_append_right _ (List.mem_cons_of_mem _ hw))
      intro hid
      exact hafter (hid ▸ List.mem_map_of_mem hw)
  rw [List.flatMap_append, List.flatMap_cons,
    flatMap_notes_eq_nil fun w hw => hnone w (.inl hw),
    flatMap_notes_eq_nil fun w hw => hnone w (.inr hw)]
  simp

namespace Tune

variable {t : Tune Float}

/-- The voices have ids of their own, which are listed in their order. -/
structure Listed (t : Tune Float) : Prop where
  order : t.voiceOrder = t.voices.map (·.id)
  ids : (t.voices.map (·.id)).Nodup

/-- All voices are in the order of declaration. -/
theorem Listed.orderedVoices_eq (h : t.Listed) : t.orderedVoices = t.voices := by
  unfold orderedVoices
  rw [h.order, List.filterMap_map]
  have hfind : ∀ v ∈ t.voices, (t.voice? ∘ (·.id)) v = some v :=
    fun _ hv => find?_of_nodup h.ids hv
  rw [List.filterMap_congr hfind, List.filterMap_some]

theorem Listed.withImplicitVoice (h : t.Listed) (id : String) :
    (t.withImplicitVoice id).Listed := by
  unfold Tune.withImplicitVoice
  split
  · exact ⟨rfl,List.nodup_singleton id⟩
  · exact h

/-- No part is asked for. -/
def Unparted (t : Tune Float) : Prop := t.heading.partSequence.getD [] = []

theorem arrangeParts_of_unparted (h : t.Unparted) (line : Nat) :
    t.arrangeParts [] line = (t,none) := by
  unfold arrangeParts
  unfold Unparted at h
  cases hsequence : t.heading.partSequence with
  | none => rfl
  | some sequence =>
    rw [hsequence] at h
    cases sequence with
    | nil => rfl
    | cons label rest => cases h

/-- Parts that are asked for but not written are a problem. -/
theorem unparted_of_arrangeParts {line : Nat} (h : (t.arrangeParts [] line).2 = none) :
    t.Unparted := by
  unfold arrangeParts at h
  unfold Unparted
  cases hsequence : t.heading.partSequence with
  | none => rfl
  | some sequence =>
    cases sequence with
    | nil => rfl
    | cons label rest =>
      rw [hsequence] at h
      cases h

theorem heading_withImplicitVoice {β : Type} [Beats β] (t : Tune β) (id : String) :
    (t.withImplicitVoice id).heading = t.heading := by
  unfold withImplicitVoice
  split <;> rfl

theorem heading_assemble (t : Tune Float) (id : String) (sections : List (Section Float))
    (line : Nat) : (t.assemble id sections line).1.heading = t.heading := by
  rw [← heading_withImplicitVoice t id]
  unfold assemble arrangeParts
  dsimp only
  split
  · rfl
  · rfl
  · next sequence _ _ =>
    unfold expandParts
    cases resolveParts (partRanges _ sections) sequence <;> rfl

/-- Where nothing is wrong with the parts of a tune that has none, none is asked for. -/
theorem unparted_of_assemble {id : String} {line : Nat} (h : (t.assemble id [] line).2 = none) :
    t.Unparted := by
  have hunparted := unparted_of_arrangeParts h
  unfold Unparted at hunparted ⊢
  exact heading_withImplicitVoice t id ▸ hunparted

/-- A tune without parts has its notes in the order of their starts. -/
theorem assemble_of_unparted (h : t.Unparted) (id : String) (line : Nat) :
    (t.assemble id [] line).1.heading = t.heading ∧
      (t.assemble id [] line).1.voices = (t.withImplicitVoice id).voices ∧
      (t.assemble id [] line).1.events = (t.withImplicitVoice id).mergeVoices ∧
      (t.assemble id [] line).2 = none := by
  let t' : Tune Float :=
    { t.withImplicitVoice id with length := writtenEnd (t.withImplicitVoice id).voices }
  have hheading : t'.heading = t.heading := heading_withImplicitVoice t id
  have hunparted : t'.Unparted := by
    unfold Unparted at h ⊢
    rwa [hheading]
  have hassemble : t.assemble id [] line = ({ t' with events := t'.mergeVoices },none) := by
    unfold assemble
    dsimp only
    rw [arrangeParts_of_unparted hunparted line]
  rw [hassemble]
  exact ⟨hheading,rfl,rfl,rfl⟩

end Tune

theorem TuneReading.listed_draft {r : TuneReading} (h : r.music.voices.order.Nodup) :
    r.draft.Listed where
  order := (VoiceTable.order_close r.music.voices).symm
  ids := (VoiceTable.order_close r.music.voices).symm ▸ h

end AbcTune
