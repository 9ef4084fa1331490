import Mathlib.Data.List.Nodup
import AbcTune.Proofs.Voice.Solo

/-! # What holds of every voice

Voices are only ever added, and an id is added once. What holds of a voice without notes, and goes
on to hold when its settings and its clock change, holds of every voice of the table.
-/
namespace AbcTune

/-- Among values with keys of their own, a key finds its value. -/
theorem find?_of_nodup {α κ : Type} [DecidableEq κ] {f : α → κ} {xs : List α} {x : α}
    (h : (xs.map f).Nodup) (hx : x ∈ xs) : xs.find? (fun y => f y = f x) = some x := by
  have hsome : (xs.find? fun y => f y = f x).isSome :=
    List.find?_isSome.mpr ⟨x,hx,decide_eq_true rfl⟩
  obtain ⟨y,hy⟩ := Option.isSome_iff_exists.mp hsome
  have hkey : f y = f x := by simpa using List.find?_some hy
  rw [hy, List.inj_on_of_nodup_map h (List.mem_of_find?_eq_some hy) hx hkey]

namespace VoiceTable

section Tables

variable {β : Type}

/-- No id is used twice, and something holds of every voice. -/
structure Each (P : Voice β → Prop) (t : VoiceTable β) : Prop where
  order : t.order.Nodup
  voices : ∀ v ∈ t.voices, P v

abbrev EachNotes (P : List (Note β) → Prop) (t : VoiceTable β) : Prop := t.Each fun v => P v.notes

variable {P Q : Voice β → Prop} {R : List (Note β) → Prop} {t : VoiceTable β} {id : String}

theorem order_modify (f : Voice β → Voice β) (hf : ∀ v, v.id = id → (f v).id = id) :
    (t.modify id f).order = t.order := by
  unfold order modify
  rw [List.map_map]
  apply List.map_congr_left
  intro v _
  by_cases hv : v.id = id
  · rw [Function.comp_apply, if_pos hv, hf v hv, hv]
  · rw [Function.comp_apply, if_neg hv]

theorem order_suspend (t : VoiceTable β) : t.suspend.order = t.order := by
  cases h : t.active with
  | none => rw [suspend_of_none h]
  | some a =>
    rw [suspend, h]
    exact order_modify (fun v => { v with savedTime := t.cursor, status := .suspended })
      fun _ hv => hv

theorem order_activate (t : VoiceTable β) (id : String) : (t.activate id).order = t.order :=
  order_modify (fun v => { v with status := .active }) fun _ hv => hv

theorem order_close (t : VoiceTable β) : t.close.map (·.id) = t.order := by
  unfold close
  split
  · exact order_modify (fun v => { v with savedTime := t.cursor }) fun _ hv => hv
  · rfl

theorem contains_iff (t : VoiceTable β) (id : String) : t.contains id = true ↔ id ∈ t.order := by
  simp [contains, order]

theorem Each.imp (h : t.Each P) (himp : ∀ v, P v → Q v) : t.Each Q :=
  ⟨h.order,fun v hv => himp v (h.voices v hv)⟩

theorem Each.modify (h : t.Each P) (f : Voice β → Voice β) (hf : ∀ v, v.id = id → (f v).id = id)
    (hP : ∀ v, P v → P (f v)) : (t.modify id f).Each P := by
  constructor
  · rw [order_modify f hf]
    exact h.order
  · intro w hw
    obtain ⟨v,hv,rfl⟩ := List.mem_map.mp hw
    split
    · exact hP v (h.voices v hv)
    · exact h.voices v hv

theorem EachNotes.suspend (h : t.EachNotes R) : t.suspend.EachNotes R := by
  unfold VoiceTable.suspend
  split
  · next a ha =>
    let save (v : Voice β) : Voice β := { v with savedTime := t.cursor, status := .suspended }
    have hsaved : (t.modify a save).EachNotes R :=
      Each.modify h save (fun _ hv => hv) fun _ hv => hv
    exact ⟨hsaved.order,hsaved.voices⟩
  · exact h

theorem EachNotes.activate (h : t.EachNotes R) (id : String) : (t.activate id).EachNotes R := by
  let take (v : Voice β) : Voice β := { v with status := .active }
  have hactive : (t.modify id take).EachNotes R :=
    Each.modify h take (fun _ hv => hv) fun _ hv => hv
  exact ⟨hactive.order,hactive.voices⟩

theorem EachNotes.close (h : t.EachNotes R) : ∀ v ∈ t.close, R v.notes := by
  unfold VoiceTable.close
  split
  · exact (Each.modify h (fun v => { v with savedTime := t.cursor }) (fun _ hv => hv)
      fun _ hv => hv).voices
  · exact h.voices

end Tables

variable {β : Type} [Beats β] {P : Voice β → Prop} {R : List (Note β) → Prop} {t : VoiceTable β}

/-! ## New voices -/

theorem active_create (t : VoiceTable β) (id : String) (a : Attributes) :
    (t.create id a).active = t.active := by
  obtain ⟨v,-,-,-,-,hactive⟩ := create_spec t id a
  exact hactive

theorem active_ensure (t : VoiceTable β) (id : String) (a : Attributes) :
    (t.ensure id a).active = t.active := by
  unfold VoiceTable.ensure
  split
  · rfl
  · exact active_create t id a

theorem active_define (t : VoiceTable β) (id : String) (a : Attributes) :
    (t.define id a).active = t.active := active_ensure t id a

theorem order_ensure (t : VoiceTable β) (id : String) (a : Attributes) :
    (t.ensure id a).order = if t.contains id then t.order else t.order ++ [id] := by
  unfold VoiceTable.ensure
  split
  · rfl
  · obtain ⟨v,hvoices,hid,-⟩ := create_spec t id a
    rw [VoiceTable.order, hvoices, List.map_append, List.map_singleton, hid]
    rfl

theorem contains_ensure (t : VoiceTable β) (id other : String) (a : Attributes) :
    (t.ensure id a).contains other = true ↔ other = id ∨ t.contains other = true := by
  rw [contains_iff, order_ensure, contains_iff t other]
  split
  · next h =>
    constructor
    · exact .inr
    · rintro (rfl | hother)
      · exact (contains_iff t other).mp h
      · exact hother
  · rw [List.mem_append, List.mem_singleton, or_comm]

theorem contains_define (t : VoiceTable β) (id other : String) (a : Attributes) :
    (t.define id a).contains other = true ↔ other = id ∨ t.contains other = true := by
  rw [VoiceTable.define, contains_modify (·.withAttributes a) fun _ hv => hv]
  exact contains_ensure t id other a

/-! ## The active voice -/

theorem HasActive.define (h : t.HasActive) (id : String) (a : Attributes) :
    (t.define id a).HasActive := by
  intro other hother
  rw [active_define] at hother
  exact (contains_define t id other a).mpr (.inr (h other hother))

theorem HasActive.switchTo (h : t.HasActive) (id : String) : (t.switchTo id).HasActive := by
  intro other hother
  obtain rfl : id = other := Option.some.inj ((active_switchTo t id).symm.trans hother)
  unfold VoiceTable.switchTo
  split
  · next hactive => exact h id hactive
  · rw [contains_iff, order_activate, ← contains_iff]
    exact (contains_ensure _ _ _ _).mpr (.inl rfl)

theorem contains_syncAll (t : VoiceTable β) (id : String) :
    t.syncAll.contains id = t.contains id := List.any_map

theorem HasActive.syncAll (h : t.HasActive) : t.syncAll.HasActive :=
  fun id hid => (contains_syncAll t id).trans (h id hid)

/-! ## Voices one by one -/

theorem each_empty : (VoiceTable.empty : VoiceTable β).Each P :=
  ⟨List.nodup_nil,fun _ hv => absurd hv List.not_mem_nil⟩

theorem Each.ensure (h : t.Each P) (hnew : ∀ v, v.notes = [] → v.savedTime = 0.0 → P v)
    (id : String) (a : Attributes) : (t.ensure id a).Each P := by
  constructor
  · rw [order_ensure]
    split
    · exact h.order
    · next hnone =>
      rw [contains_iff] at hnone
      exact List.concat_eq_append ▸ h.order.concat hnone
  · unfold VoiceTable.ensure
    split
    · exact h.voices
    · intro w hw
      obtain ⟨v,hvoices,-,hnotes,htime,-⟩ := create_spec t id a
      rw [hvoices] at hw
      rcases List.mem_append.mp hw with hw | hw
      · exact h.voices w hw
      · rw [List.mem_singleton.mp hw]
        exact hnew v hnotes htime

theorem Each.define (h : t.Each P) (hnew : ∀ v, v.notes = [] → v.savedTime = 0.0 → P v)
    (hset : ∀ v a, P v → P (v.withAttributes a)) (id : String) (a : Attributes) :
    (t.define id a).Each P :=
  (h.ensure hnew id a).modify (·.withAttributes a) (fun _ hv => hv) fun v hv => hset v a hv

theorem EachNotes.define (h : t.EachNotes R) (hnil : R []) (id : String) (a : Attributes) :
    (t.define id a).EachNotes R :=
  Each.define h (fun _ hv _ => hv ▸ hnil) (fun _ _ hv => hv) id a

theorem EachNotes.switchTo (h : t.EachNotes R) (hnil : R []) (id : String) :
    (t.switchTo id).EachNotes R := by
  unfold VoiceTable.switchTo
  split
  · exact h
  · have hensured : (t.suspend.ensure id .none).EachNotes R :=
      Each.ensure h.suspend (fun _ hv _ => hv ▸ hnil) id .none
    exact hensured.activate id

theorem EachNotes.ensureActive (h : t.EachNotes R) (hnil : R []) : t.ensureActive.EachNotes R :=
  h.switchTo hnil t.noteVoice

theorem EachNotes.ensureSettings (h : t.EachNotes R) (hnil : R []) :
    t.ensureSettings.EachNotes R := by
  unfold VoiceTable.ensureSettings
  split
  · exact h
  · exact h.define hnil implicitVoice .none

theorem EachNotes.syncAll (h : t.EachNotes R) : t.syncAll.EachNotes R := by
  constructor
  · unfold VoiceTable.syncAll VoiceTable.order
    rw [List.map_map]
    exact h.order
  · intro w hw
    obtain ⟨v,hv,rfl⟩ := List.mem_map.mp hw
    exact h.voices v hv

end VoiceTable
end AbcTune
