import AbcTune.Voice.Table

/-! # One voice of a table

What a voice does depends on its own settings, notes and clock. Its clock is the running cursor
while it is active and the time saved in it otherwise, so that a switch leaves all clocks alone.
-/
namespace AbcTune

variable {β : Type}

namespace VoiceTable

variable {t : VoiceTable β} {id other : String} {v : Voice β}

/-- The voices of an id; there is at most one in a table that music is read into. -/
def named (t : VoiceTable β) (id : String) : List (Voice β) := t.voices.filter (·.id = id)

/-- The active voice is one of the table. -/
def HasActive (t : VoiceTable β) : Prop := ∀ id ∈ t.active, t.contains id = true

theorem find?_eq_head? (t : VoiceTable β) (id : String) : t.find? id = (t.named id).head? :=
  List.head?_filter.symm

theorem find?_id (h : t.find? id = some v) : v.id = id := by
  simpa using List.find?_some h

theorem contains_eq_isSome (t : VoiceTable β) (id : String) :
    t.contains id = (t.find? id).isSome := by
  rw [find?, List.isSome_find?]
  rfl

theorem exists_find? (h : t.contains id = true) : ∃ v, t.find? id = some v :=
  Option.isSome_iff_exists.mp ((contains_eq_isSome t id).symm.trans h)

theorem noteVoice_of_active (h : t.active = some id) : t.noteVoice = id := by
  rw [noteVoice, h]

/-- A change to one voice is not seen by the others. -/
theorem named_modify_of_ne (f : Voice β → Voice β) (hf : ∀ v, v.id = id → (f v).id = id)
    (hne : other ≠ id) : (t.modify id f).named other = t.named other := by
  simp only [named, modify]
  induction t.voices with
  | nil => rfl
  | cons v rest ih =>
    rw [List.map_cons]
    by_cases hv : v.id = id
    · rw [if_pos hv, List.filter_cons_of_neg (by simp [hf v hv, hne.symm]),
        List.filter_cons_of_neg (by simp [hv, hne.symm]), ih]
    · rw [if_neg hv, List.filter_cons, List.filter_cons, ih]

theorem named_modify (f : Voice β → Voice β) (hf : ∀ v, v.id = id → (f v).id = id) :
    (t.modify id f).named id = (t.named id).map f := by
  simp only [named, modify]
  induction t.voices with
  | nil => rfl
  | cons v rest ih =>
    rw [List.map_cons]
    by_cases hv : v.id = id
    · rw [if_pos hv, List.filter_cons_of_pos (by simp [hf v hv]),
        List.filter_cons_of_pos (by simp [hv]), List.map_cons, ih]
    · rw [if_neg hv, List.filter_cons_of_neg (by simp [hv]),
        List.filter_cons_of_neg (by simp [hv]), ih]

theorem find?_modify (f : Voice β → Voice β) (hf : ∀ v, v.id = id → (f v).id = id) :
    (t.modify id f).find? id = (t.find? id).map f := by
  rw [find?_eq_head?, named_modify f hf, List.head?_map, find?_eq_head?]

theorem find?_modify_of_ne (f : Voice β → Voice β) (hf : ∀ v, v.id = id → (f v).id = id)
    (hne : other ≠ id) : (t.modify id f).find? other = t.find? other := by
  rw [find?_eq_head?, named_modify_of_ne f hf hne, find?_eq_head?]

theorem suspend_of_none (h : t.active = none) : t.suspend = t := by
  rw [suspend, h]

theorem contains_modify (f : Voice β → Voice β) (hf : ∀ v, v.id = id → (f v).id = id)
    (other : String) : (t.modify id f).contains other = t.contains other := by
  rw [contains_eq_isSome, contains_eq_isSome]
  by_cases hne : other = id
  · subst hne
    rw [find?_modify f hf, Option.isSome_map]
  · rw [find?_modify_of_ne f hf hne]

theorem active_suspend (t : VoiceTable β) : t.suspend.active = none := by
  cases h : t.active with
  | none => rw [suspend_of_none h, h]
  | some a => rw [suspend, h]

theorem contains_suspend (t : VoiceTable β) (id : String) :
    t.suspend.contains id = t.contains id := by
  cases h : t.active with
  | none => rw [suspend_of_none h]
  | some a =>
    rw [suspend, h]
    exact contains_modify (fun v => { v with savedTime := t.cursor, status := .suspended })
      (fun _ hv => hv) id

end VoiceTable

variable [Beats β]

/-- A voice but for its saved time and status, which only say where the cursor is. -/
def Voice.settle (v : Voice β) : Voice β := { v with savedTime := 0.0, status := .active }

namespace VoiceTable

variable {t : VoiceTable β} {id other : String} {v : Voice β}

/-- Where the notes of a voice go on. -/
def clock (t : VoiceTable β) (id : String) : β :=
  if t.active = some id then t.cursor else ((t.find? id).map (·.savedTime)).getD 0.0

/-- The table as one voice sees it. -/
def solo (t : VoiceTable β) (id : String) : VoiceTable β where
  voices := (t.named id).map Voice.settle
  active := some id
  cursor := t.clock id
  nextChannel := 0

theorem clock_of_active (h : t.active = some id) : t.clock id = t.cursor := if_pos h

theorem clock_of_ne (h : t.active ≠ some id) :
    t.clock id = ((t.find? id).map (·.savedTime)).getD 0.0 := if_neg h

theorem switchTo_of_active (h : t.active = some id) : t.switchTo id = t := if_pos h

theorem ensureActive_of_active (h : t.active = some id) : t.ensureActive = t := by
  rw [ensureActive, noteVoice_of_active h, switchTo_of_active h]

/-! ## What one voice sees -/

theorem find?_solo (t : VoiceTable β) (id : String) :
    (t.solo id).find? id = (t.find? id).map Voice.settle := by
  have hnamed : (t.solo id).named id = (t.named id).map Voice.settle := by
    apply List.filter_eq_self.mpr
    intro v hv
    obtain ⟨w,hw,rfl⟩ := List.mem_map.mp hv
    exact (List.mem_filter.mp hw).2
  rw [find?_eq_head?, find?_eq_head?, hnamed, List.head?_map]

theorem solo_advance (h : t.active = some id) (beats : β) :
    (t.advance beats).solo id = (t.solo id).advance beats := by
  have hclock : (t.advance beats).clock id = t.clock id + beats := by
    rw [clock_of_active h, clock_of_active (show (t.advance beats).active = some id from h)]
    rfl
  simp only [solo, advance] at hclock ⊢
  rw [hclock]
  rfl

theorem solo_setVoice (h : t.active = some id) (hid : v.id = id) :
    (t.modify id fun _ => v).solo id = (t.solo id).modify id fun _ => v.settle := by
  have hnamed := named_modify (t := t) (fun _ => v) fun _ _ => hid
  have hclock : (t.modify id fun _ => v).clock id = t.clock id := by
    rw [clock_of_active h, clock_of_active (show (t.modify id fun _ => v).active = some id from h)]
    rfl
  rw [solo, hnamed, hclock]
  simp only [modify, solo, List.map_map]
  congr 1
  apply List.map_congr_left
  intro w hw
  have hwid : w.settle.id = id := of_decide_eq_true (List.mem_filter.mp hw).2
  simp only [Function.comp_apply, if_pos hwid]

/-! ## Switching -/

theorem solo_congr {u : VoiceTable β}
    (hvoices : (t.named id).map Voice.settle = (u.named id).map Voice.settle)
    (hclock : t.clock id = u.clock id) : t.solo id = u.solo id := by
  rw [solo, solo, hvoices, hclock]

/-- A change of saved times and status is only seen in the clock. -/
theorem named_settle_modify (f : Voice β → Voice β) (hf : ∀ v, (f v).settle = v.settle) :
    ((t.modify id f).named other).map Voice.settle = (t.named other).map Voice.settle := by
  have hid : ∀ v, v.id = id → (f v).id = id := fun v hv =>
    (congrArg Voice.id (hf v)).trans hv
  by_cases hne : other = id
  · subst hne
    rw [named_modify f hid, List.map_map]
    exact List.map_congr_left fun v _ => hf v
  · rw [named_modify_of_ne f hid hne]

theorem solo_suspend (h : t.HasActive) (other : String) : t.suspend.solo other = t.solo other := by
  cases hactive : t.active with
  | none => rw [suspend_of_none hactive]
  | some a =>
    let save (v : Voice β) : Voice β := { v with savedTime := t.cursor, status := .suspended }
    have hsuspend : t.suspend = { t.modify a save with active := none } := by
      rw [suspend, hactive]
    have hid : ∀ v, v.id = a → (save v).id = a := fun _ hid => hid
    obtain ⟨v,hv⟩ := exists_find? (h a hactive)
    refine solo_congr ?_ ?_
    · rw [hsuspend]
      exact named_settle_modify save fun _ => rfl
    · rw [clock_of_ne (by rw [active_suspend]; simp), hsuspend]
      change (((t.modify a save).find? other).map (·.savedTime)).getD 0.0 = _
      by_cases hne : other = a
      · subst hne
        rw [find?_modify save hid, hv, clock_of_active hactive]
        rfl
      · rw [find?_modify_of_ne save hid hne, clock_of_ne (by simp [hactive, Ne.symm hne])]

theorem solo_activate (hactive : t.active = none) (hid : t.contains id = true) (other : String) :
    (t.activate id).solo other = t.solo other := by
  let take (v : Voice β) : Voice β := { v with status := .active }
  obtain ⟨v,hv⟩ := exists_find? hid
  refine solo_congr (named_settle_modify take fun _ => rfl) ?_
  rw [clock_of_ne (t := t) (by simp [hactive])]
  by_cases hne : other = id
  · subst hne
    rw [clock_of_active rfl, hv]
    simp [activate, hv]
  · rw [clock_of_ne (by simp [activate, Ne.symm hne])]
    have hfind := find?_modify_of_ne (t := t) take (fun _ hv => hv) hne
    exact congrArg (fun v : Option (Voice β) => (v.map (·.savedTime)).getD 0.0) hfind

/-- Whichever voice is switched to, each one still sees the same. -/
theorem solo_switchTo (h : t.HasActive) (hid : t.contains id = true) (other : String) :
    (t.switchTo id).solo other = t.solo other := by
  unfold switchTo
  split
  · rfl
  · have hcontains : t.suspend.contains id = true := (contains_suspend t id).trans hid
    rw [ensure, if_pos hcontains, solo_activate (active_suspend t) hcontains, solo_suspend h]

/-- The voice that is created is empty, whatever its channel. -/
theorem create_spec (t : VoiceTable β) (id : String) (a : Attributes) :
    ∃ v, (t.create id a).voices = t.voices ++ [v] ∧ v.id = id ∧ v.notes = [] ∧ v.savedTime = 0.0 ∧
      (t.create id a).active = t.active := by
  unfold create
  dsimp only
  split
  · exact ⟨_,rfl,rfl,rfl,rfl,rfl⟩
  · split <;> exact ⟨_,rfl,rfl,rfl,rfl,rfl⟩

theorem active_switchTo (t : VoiceTable β) (id : String) : (t.switchTo id).active = some id := by
  unfold switchTo
  split
  · next h => exact h
  · rfl

theorem contains_switchTo (hid : t.contains id = true) (other : String) :
    (t.switchTo id).contains other = t.contains other := by
  unfold switchTo
  split
  · rfl
  · rw [ensure, if_pos ((contains_suspend t id).trans hid), ← contains_suspend t other]
    exact contains_modify (fun v => { v with status := .active }) (fun _ hv => hv) other

/-- At the end a voice has its notes and its clock, which it sees by itself. -/
theorem find?_close (t : VoiceTable β) (id : String) :
    (t.close.find? (·.id = id)).map (fun v => (v.notes,v.savedTime)) =
      ((t.solo id).find? id).map fun v => (v.notes,(t.solo id).cursor) := by
  have hsolo : ((t.solo id).find? id).map (fun v => (v.notes,(t.solo id).cursor)) =
      (t.find? id).map fun v => (v.notes,t.clock id) := by
    rw [find?_solo, Option.map_map]
    rfl
  rw [hsolo]
  unfold close
  cases hactive : t.active with
  | none =>
    change (t.find? id).map _ = _
    rw [clock_of_ne (by simp [hactive])]
    cases t.find? id <;> rfl
  | some a =>
    let save (v : Voice β) : Voice β := { v with savedTime := t.cursor }
    change ((t.modify a save).find? id).map _ = _
    by_cases hne : id = a
    · subst hne
      rw [find?_modify save fun _ hv => hv, clock_of_active hactive, Option.map_map]
      rfl
    · rw [find?_modify_of_ne save (fun _ hv => hv) hne,
        clock_of_ne (by simp [hactive, Ne.symm hne])]
      cases t.find? id <;> rfl

end VoiceTable
end AbcTune
