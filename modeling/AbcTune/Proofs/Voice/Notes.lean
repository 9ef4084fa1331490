import AbcTune.Proofs.Voice.Consistent

/-! # The notes of a voice in a table

Definitions, switches and syncs change the settings and the clocks of voices, and they may add
voices without notes. So they leave the notes that an id stands for as they are.
-/
namespace AbcTune.VoiceTable

section Tables

variable {β : Type} {t : VoiceTable β} {id : String} {v w : Voice β}

/-- The notes of a voice; one that is not in the table has none. -/
def notesOf (t : VoiceTable β) (id : String) : List (Note β) :=
  ((t.find? id).map (·.notes)).getD []

theorem notesOf_of_find? (h : t.find? id = some v) : t.notesOf id = v.notes := by
  rw [notesOf, h]
  rfl

theorem exists_of_lt_notesOf {i : Nat} (h : i < (t.notesOf id).length) :
    ∃ v, t.find? id = some v ∧ i < v.notes.length := by
  cases hv : t.find? id with
  | none =>
    rw [notesOf, hv] at h
    exact absurd h (Nat.not_lt_zero i)
  | some v =>
    rw [notesOf_of_find? hv] at h
    exact ⟨v,rfl,h⟩

theorem notesOf_modify (f : Voice β → Voice β) (hid : ∀ v, v.id = id → (f v).id = id)
    (hnotes : ∀ v, (f v).notes = v.notes) (other : String) :
    (t.modify id f).notesOf other = t.notesOf other := by
  unfold notesOf
  by_cases hne : other = id
  · subst hne
    rw [find?_modify f hid, Option.map_map]
    exact congrArg (fun g => ((t.find? other).map g).getD []) (funext hnotes)
  · rw [find?_modify_of_ne f hid hne]

theorem find?_replace (hv : t.find? w.id = some v) :
    (t.modify w.id fun _ => w).find? w.id = some w := by
  rw [find?_modify (fun _ => w) fun _ _ => rfl, hv]
  rfl

theorem notesOf_replace (hv : t.find? w.id = some v) :
    (t.modify w.id fun _ => w).notesOf w.id = w.notes := notesOf_of_find? (find?_replace hv)

theorem notesOf_replace_of_ne (h : id ≠ w.id) :
    (t.modify w.id fun _ => w).notesOf id = t.notesOf id := by
  rw [notesOf, find?_modify_of_ne (fun _ => w) (fun _ _ => rfl) h]
  rfl

theorem notesOf_suspend (t : VoiceTable β) (id : String) : t.suspend.notesOf id = t.notesOf id := by
  cases h : t.active with
  | none => rw [suspend_of_none h]
  | some a =>
    rw [suspend, h]
    exact notesOf_modify (fun v => { v with savedTime := t.cursor, status := .suspended })
      (fun _ hv => hv) (fun _ => rfl) id

theorem notesOf_activate (t : VoiceTable β) (id other : String) :
    (t.activate id).notesOf other = t.notesOf other :=
  notesOf_modify (fun v => { v with status := .active }) (fun _ hv => hv) (fun _ => rfl) other

end Tables

variable {β : Type} [Beats β] {t : VoiceTable β}

theorem notesOf_ensure (t : VoiceTable β) (id : String) (a : Attributes) (other : String) :
    (t.ensure id a).notesOf other = t.notesOf other := by
  unfold ensure
  split
  · rfl
  · obtain ⟨v,hvoices,-,hnotes,-⟩ := create_spec t id a
    unfold notesOf find?
    rw [hvoices, List.find?_append]
    cases t.voices.find? (·.id = other) with
    | some w => rfl
    | none =>
      by_cases hv : v.id = other
      · simp [hv, hnotes]
      · simp [hv]

theorem notesOf_define (t : VoiceTable β) (id : String) (a : Attributes) (other : String) :
    (t.define id a).notesOf other = t.notesOf other := by
  rw [define, notesOf_modify (·.withAttributes a) (fun _ hv => hv) fun _ => rfl, notesOf_ensure]

theorem notesOf_switchTo (t : VoiceTable β) (id other : String) :
    (t.switchTo id).notesOf other = t.notesOf other := by
  unfold switchTo
  split
  · rfl
  · rw [notesOf_activate, notesOf_ensure, notesOf_suspend]

theorem notesOf_ensureActive (t : VoiceTable β) (id : String) :
    t.ensureActive.notesOf id = t.notesOf id := notesOf_switchTo t t.noteVoice id

theorem notesOf_ensureSettings (t : VoiceTable β) (id : String) :
    t.ensureSettings.notesOf id = t.notesOf id := by
  unfold ensureSettings
  split
  · rfl
  · exact notesOf_define t implicitVoice .none id

theorem notesOf_syncAll (t : VoiceTable β) (id : String) :
    t.syncAll.notesOf id = t.notesOf id := by
  unfold notesOf find? syncAll
  rw [List.find?_map, Option.map_map]
  rfl

/-- Whatever is asked of a table, the notes of its voices stay as they are. -/
theorem notesOf_apply (t : VoiceTable β) (op : Operation β) (id : String) :
    (t.apply op).notesOf id = t.notesOf id := by
  cases op with
  | define other a => exact notesOf_define t other a id
  | switchTo other => exact notesOf_switchTo t other id
  | ensureActive => exact notesOf_ensureActive t id
  | ensureSettings => exact notesOf_ensureSettings t id
  | advance beats => rfl
  | syncAll => exact notesOf_syncAll t id

theorem HasActive.apply (h : t.HasActive) (op : Operation β) : (t.apply op).HasActive := by
  intro id hid
  cases op with
  | define other a => exact h.define other a id hid
  | switchTo other => exact h.switchTo other id hid
  | ensureActive => exact h.switchTo t.noteVoice id hid
  | ensureSettings =>
    refine contains_apply .ensureSettings (h id ?_)
    exact (active_ensureSettings t).symm.trans hid
  | advance beats => exact h id hid
  | syncAll => exact h.syncAll id hid

/-- The voice that notes go to is there once it is made active. -/
theorem HasActive.exists_noteVoice (h : t.HasActive) :
    ∃ v, t.ensureActive.find? t.noteVoice = some v ∧ v.id = t.noteVoice := by
  have hactive : t.ensureActive.active = some t.noteVoice := active_switchTo t t.noteVoice
  obtain ⟨v,hv⟩ := exists_find? (h.switchTo t.noteVoice t.noteVoice hactive)
  exact ⟨v,hv,find?_id hv⟩

end AbcTune.VoiceTable
