import AbcTune.Proofs.Voice.Clocks

/-! # A table that stays consistent

Voices come from four places: definitions, switches, notes without a voice and settings without a
voice. Whichever it is, a new voice comes under an id that is not taken, and only a switch changes
which voice is active. So the status of a voice always says whether it is the active one.
-/
namespace AbcTune

namespace Voice

variable {β : Type} {v : Voice β}

/-- A voice is active just if the table says so, and otherwise it waits: it was defined, or it has
been left. -/
def InStep (active : Option String) (v : Voice β) : Prop :=
  v.status ≠ .unseen ∧ (v.status = .active ↔ active = some v.id)

theorem inStep_none : v.InStep none ↔ v.status = .defined ∨ v.status = .suspended := by
  unfold InStep
  cases v.status <;> simp

theorem InStep.active (h : v.InStep (some v.id)) : v.status = .active := h.2.mpr rfl

theorem InStep.waits {active : Option String} (h : v.InStep active) (hid : active ≠ some v.id) :
    v.status = .defined ∨ v.status = .suspended := by
  have hidle : v.status ≠ .active := fun hv => hid (h.2.mp hv)
  exact inStep_none.mp ⟨h.1,by simp [hidle]⟩

end Voice

namespace VoiceTable

section Tables

variable {β : Type} {t : VoiceTable β} {id : String} {v : Voice β}

/-- No id is used twice, the active voice is there, and the status of each voice agrees with it. -/
structure Consistent (t : VoiceTable β) : Prop where
  each : t.Each (Voice.InStep t.active)
  active : t.HasActive

/-- Changes within the voices leave a table consistent if each of them keeps in step. -/
theorem Consistent.of_map {u : VoiceTable β} (h : t.Consistent) {f : Voice β → Voice β}
    (hvoices : u.voices = t.voices.map f) (hid : ∀ v, (f v).id = v.id)
    (hactive : ∀ id ∈ u.active, t.contains id = true)
    (hstep : ∀ v, v.InStep t.active → (f v).InStep u.active) : u.Consistent := by
  have horder : u.order = t.order := by
    rw [order, hvoices, List.map_map]
    exact List.map_congr_left fun v _ => hid v
  refine ⟨⟨horder ▸ h.each.order,fun w hw => ?_⟩,fun id hid => ?_⟩
  · obtain ⟨v,hv,rfl⟩ := List.mem_map.mp (hvoices ▸ hw)
    exact hstep v (h.each.voices v hv)
  · rw [contains_iff, horder, ← contains_iff]
    exact hactive id hid

theorem Consistent.withAttributes (h : t.Consistent) (id : String) (a : Attributes) :
    (t.modify id (·.withAttributes a)).Consistent := by
  refine h.of_map rfl (fun v => ?_) h.active fun v hv => ?_
  · split <;> rfl
  · split <;> exact hv

theorem Consistent.suspend (h : t.Consistent) : t.suspend.Consistent := by
  cases hactive : t.active with
  | none => rwa [suspend_of_none hactive]
  | some a =>
    rw [VoiceTable.suspend, hactive]
    refine h.of_map rfl (fun v => ?_) (fun _ hid => absurd hid (Option.not_mem_none _))
      fun v hv => ?_
    · split <;> rfl
    · rw [hactive] at hv
      by_cases hid : v.id = a
      · rw [if_pos hid]
        exact Voice.inStep_none.mpr (.inr rfl)
      · -- a voice that is not the one left was not active before either
        rw [if_neg hid]
        exact Voice.inStep_none.mpr (hv.waits fun heq => hid (Option.some.inj heq).symm)

theorem Consistent.activate (h : t.Consistent) (hnone : t.active = none)
    (hid : t.contains id = true) : (t.activate id).Consistent := by
  refine h.of_map rfl (fun v => ?_) (fun _ hactive => Option.some.inj hactive ▸ hid) fun v hv => ?_
  · split <;> rfl
  · rw [hnone, Voice.inStep_none] at hv
    by_cases hv' : v.id = id
    · rw [if_pos hv']
      exact ⟨by simp,by simp [VoiceTable.activate, hv']⟩
    · rw [if_neg hv']
      rcases hv with hv | hv <;>
        exact ⟨by simp [hv],by simp [VoiceTable.activate, hv, Ne.symm hv']⟩

theorem Consistent.status_of_find? (h : t.Consistent) (hv : t.find? id = some v) :
    v.id = id ∧ ((t.active = some id ∧ v.status = .active) ∨
      (t.active ≠ some id ∧ (v.status = .defined ∨ v.status = .suspended))) := by
  obtain rfl := find?_id hv
  have hstep := h.each.voices v (List.mem_of_find?_eq_some hv)
  refine ⟨rfl,?_⟩
  by_cases hactive : t.active = some v.id
  · exact .inl ⟨hactive,(hactive ▸ hstep).active⟩
  · exact .inr ⟨hactive,hstep.waits hactive⟩

theorem Consistent.existsUnique_active (h : t.Consistent) (hactive : t.active.isSome) :
    ∃! v, v ∈ t.voices ∧ v.status = .active := by
  obtain ⟨id,hid⟩ := Option.isSome_iff_exists.mp hactive
  obtain ⟨v,hv⟩ := exists_find? (h.active id hid)
  have hmem := List.mem_of_find?_eq_some hv
  obtain rfl := find?_id hv
  refine ⟨v,⟨hmem,(hid ▸ h.each.voices v hmem).active⟩,?_⟩
  rintro w ⟨hw,hstatus⟩
  have hid' : w.id = v.id :=
    Option.some.inj (((h.each.voices w hw).2.mp hstatus).symm.trans hid)
  exact List.inj_on_of_nodup_map h.each.order hw hmem hid'

end Tables

variable {β : Type} [Beats β] {t : VoiceTable β}

/-! ## What is asked of a table -/

theorem consistent_empty : (empty : VoiceTable β).Consistent :=
  ⟨each_empty,fun _ hid => absurd hid (Option.not_mem_none _)⟩

theorem voices_create (t : VoiceTable β) (id : String) (a : Attributes) :
    ∃ v, (t.create id a).voices = t.voices ++ [v] ∧ v.id = id ∧ v.status = .defined := by
  unfold create
  dsimp only
  split
  · exact ⟨_,rfl,rfl,rfl⟩
  · split <;> exact ⟨_,rfl,rfl,rfl⟩

theorem Consistent.ensure (h : t.Consistent) (id : String) (a : Attributes) :
    (t.ensure id a).Consistent := by
  unfold VoiceTable.ensure
  split
  · exact h
  · next hnew =>
    obtain ⟨v,hvoices,rfl,hstatus⟩ := voices_create t id a
    have hfree : v.id ∉ t.order := fun hid => hnew ((contains_iff t v.id).mpr hid)
    refine ⟨⟨?_,fun w hw => ?_⟩,fun other hother => ?_⟩
    · rw [order, hvoices, List.map_append, List.map_singleton, ← List.concat_eq_append]
      exact h.each.order.concat hfree
    · rw [active_create]
      rw [hvoices] at hw
      rcases List.mem_append.mp hw with hw | hw
      · exact h.each.voices w hw
      · -- the active voice is in the table already, so it is not the new one
        have hidle : t.active ≠ some v.id :=
          fun hid => hfree ((contains_iff t v.id).mp (h.active v.id hid))
        rw [List.mem_singleton.mp hw]
        exact ⟨by simp [hstatus],by simp [hstatus, hidle]⟩
    · rw [active_create] at hother
      rw [contains_iff, order, hvoices, List.map_append]
      exact List.mem_append_left _ ((contains_iff t other).mp (h.active other hother))

theorem Consistent.define (h : t.Consistent) (id : String) (a : Attributes) :
    (t.define id a).Consistent := (h.ensure id a).withAttributes id a

theorem Consistent.switchTo (h : t.Consistent) (id : String) : (t.switchTo id).Consistent := by
  unfold VoiceTable.switchTo
  split
  · exact h
  · refine (h.suspend.ensure id .none).activate ?_ ?_
    · rw [active_ensure, active_suspend]
    · exact (contains_ensure _ _ _ _).mpr (.inl rfl)

theorem Consistent.ensureSettings (h : t.Consistent) : t.ensureSettings.Consistent := by
  unfold VoiceTable.ensureSettings
  split
  · exact h
  · exact h.define implicitVoice .none

theorem Consistent.syncAll (h : t.Consistent) : t.syncAll.Consistent :=
  h.of_map rfl (fun _ => rfl) h.active fun _ hv => hv

theorem Consistent.apply (h : t.Consistent) (op : Operation β) : (t.apply op).Consistent := by
  cases op with
  | define id a => exact h.define id a
  | switchTo id => exact h.switchTo id
  | ensureActive => exact h.switchTo t.noteVoice
  | ensureSettings => exact h.ensureSettings
  | advance beats => exact ⟨⟨h.each.order,h.each.voices⟩,h.active⟩
  | syncAll => exact h.syncAll

theorem Consistent.run (h : t.Consistent) (ops : List (Operation β)) : (t.run ops).Consistent := by
  induction ops generalizing t with
  | nil => exact h
  | cons op rest ih => exact ih (h.apply op)

/-! ## There is an active voice from the first switch on -/

theorem active_ensureSettings (t : VoiceTable β) : t.ensureSettings.active = t.active := by
  unfold ensureSettings
  split
  · rfl
  · exact active_define t implicitVoice .none

theorem isSome_active_apply (h : t.active.isSome) (op : Operation β) :
    (t.apply op).active.isSome := by
  cases op with
  | define id a => exact (active_define t id a).symm ▸ h
  | switchTo id => exact (active_switchTo t id).symm ▸ rfl
  | ensureActive => exact (active_switchTo t t.noteVoice).symm ▸ rfl
  | ensureSettings => exact (active_ensureSettings t).symm ▸ h
  | advance | syncAll => exact h

theorem isSome_active_run (h : t.active.isSome) (ops : List (Operation β)) :
    (t.run ops).active.isSome := by
  induction ops generalizing t with
  | nil => exact h
  | cons op rest ih => exact ih (isSome_active_apply h op)

/-- Whatever is asked of a new table, each id stands once and finds the voice of that id, the
active id is one of them, and its voice alone has the status of an active one while the others are
defined or have been left. Once a voice is active there is exactly one ever after. -/
theorem run_consistent {ops : List (Operation β)} {t : VoiceTable β} (hrun : empty.run ops = t) :
    t.order.Nodup ∧
    (∀ id, id ∈ t.order ↔ ∃ v, t.find? id = some v) ∧
    (∀ id v, t.find? id = some v → v.id = id ∧
      ((t.active = some id ∧ v.status = .active) ∨
        (t.active ≠ some id ∧ (v.status = .defined ∨ v.status = .suspended)))) ∧
    (∀ id, t.active = some id → id ∈ t.order) ∧
    (t.active.isSome → ∀ more, ∃! v, v ∈ (t.run more).voices ∧ v.status = .active) := by
  have h : t.Consistent := hrun ▸ consistent_empty.run ops
  refine ⟨h.each.order,fun id => ?_,fun id v hv => h.status_of_find? hv,
    fun id hid => (contains_iff t id).mp (h.active id hid),
    fun hactive more => (h.run more).existsUnique_active (isSome_active_run hactive more)⟩
  rw [← contains_iff, contains_eq_isSome, Option.isSome_iff_exists]

/-- The three statuses that are left, side by side. -/
theorem run_consistent_switched :
    ∃ (ops : List (Operation Rat)) (t : VoiceTable Rat), empty.run ops = t ∧
      t.active = some "3" ∧
      t.voices.map (fun v => (v.id,v.status)) =
        [("1",.defined),("2",.suspended),("3",.active)] ∧
      t.order.Nodup ∧ ∃! v, v ∈ (t.run [.define "4" .none,.ensureActive]).voices ∧
        v.status = .active := by
  let ops : List (Operation Rat) :=
    [.ensureSettings,.switchTo "2",.advance 2,.switchTo "3",.syncAll]
  have hrun : (empty : VoiceTable Rat).run ops = empty.run ops := rfl
  obtain ⟨hnodup,-,-,-,hunique⟩ := run_consistent hrun
  exact ⟨ops,empty.run ops,rfl,rfl,by decide +kernel,hnodup,hunique rfl _⟩

end VoiceTable
end AbcTune
