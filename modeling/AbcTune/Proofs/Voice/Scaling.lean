import Mathlib.Tactic.Ring
import AbcTune.Proofs.Voice.Clocks

/-! # Voices in another unit of time

A table with all its times multiplied by a positive number holds the same voices in another unit of
time. All that is asked of a table takes no notice of the unit: it makes no difference whether times
are multiplied before or after it.
-/
namespace AbcTune

/-- A note with its times multiplied by a number. -/
def Note.magnify (c : Rat) (n : Note Rat) : Note Rat :=
  { n with start := c * n.start, duration := c * n.duration }

/-- A voice with its times multiplied by a number. -/
def Voice.magnify (c : Rat) (v : Voice Rat) : Voice Rat :=
  { v with savedTime := c * v.savedTime, notes := v.notes.map (Note.magnify c) }

/-- A voice without notes that starts at the first beat is the same in all units. -/
theorem Voice.magnify_of_fresh (c : Rat) {v : Voice Rat} (htime : v.savedTime = 0.0)
    (hnotes : v.notes = []) : v.magnify c = v := by
  obtain ⟨id,name,subname,program,channel,fixedChannel,clef,transpose,octave,muted,volume,savedTime,
    status,notes⟩ := v
  obtain rfl : savedTime = 0.0 := htime
  obtain rfl : notes = [] := hnotes
  simp [Voice.magnify, Beats.zero_eq]

/-! ## Order of times -/

namespace Beats

variable {c : Rat} (hc : 0 < c)

include hc

theorem later_mul (a b : Rat) : later (c * a) (c * b) = c * later a b := by
  rw [later_eq_max, later_eq_max, mul_max_of_nonneg a b hc.le]

theorem foldl_later_mul (init : Rat) (xs : List Rat) :
    (xs.map (c * ·)).foldl later (c * init) = c * xs.foldl later init := by
  induction xs generalizing init with
  | nil => rfl
  | cons x xs ih => rw [List.map_cons, List.foldl_cons, later_mul hc, ih, List.foldl_cons]

end Beats

namespace VoiceTable

/-- A table with all its times multiplied by a number. -/
def magnify (c : Rat) (t : VoiceTable Rat) : VoiceTable Rat :=
  { t with voices := t.voices.map (Voice.magnify c), cursor := c * t.cursor }

/-- The same operation where times are multiplied by a number. -/
def Operation.magnify (c : Rat) : Operation Rat → Operation Rat
  | .advance beats => .advance (c * beats)
  | op => op

variable (c : Rat) (t : VoiceTable Rat)

@[simp] theorem active_magnify : (t.magnify c).active = t.active := rfl

@[simp] theorem find?_magnify (id : String) :
    (t.magnify c).find? id = (t.find? id).map (Voice.magnify c) := List.find?_map

@[simp] theorem contains_magnify (id : String) : (t.magnify c).contains id = t.contains id :=
  List.any_map

@[simp] theorem order_magnify : (t.magnify c).order = t.order := List.map_map

@[simp] theorem noteVoice_magnify : (t.magnify c).noteVoice = t.noteVoice := by
  rw [noteVoice, noteVoice, active_magnify, order_magnify]

theorem modify_magnify (id : String) {f g : Voice Rat → Voice Rat}
    (h : ∀ v, g (v.magnify c) = (f v).magnify c) :
    (t.magnify c).modify id g = (t.modify id f).magnify c := by
  have hvoice (v : Voice Rat) : (if (v.magnify c).id = id then g (v.magnify c) else v.magnify c) =
      (if v.id = id then f v else v).magnify c := by
    rw [h]
    exact (apply_ite (Voice.magnify c) (v.id = id) (f v) v).symm
  simp only [modify, magnify, List.map_map]
  exact congrArg (fun voices => { t with voices, cursor := c * t.cursor })
    (List.map_congr_left fun v _ => hvoice v)

theorem advance_magnify (beats : Rat) :
    (t.magnify c).advance (c * beats) = (t.advance beats).magnify c := by
  rw [advance, advance, magnify, magnify, mul_add]

theorem create_magnify (id : String) (a : Attributes) :
    (t.magnify c).create id a = (t.create id a).magnify c := by
  have hadd (channel next : Nat) :
      ({ t.magnify c with
        voices := (t.magnify c).voices ++ [{ Voice.new id with status := .defined, channel }]
        nextChannel := next } : VoiceTable Rat) =
      magnify c { t with
        voices := t.voices ++ [{ Voice.new id with status := .defined, channel }]
        nextChannel := next } := by
    have hnew := Voice.magnify_of_fresh c
      (v := { Voice.new id with status := .defined, channel }) rfl rfl
    simp only [magnify, List.map_append, List.map_singleton, hnew]
  unfold create
  dsimp only
  split
  · exact hadd _ _
  · split
    · exact hadd _ _
    · exact hadd _ _

theorem ensure_magnify (id : String) (a : Attributes) :
    (t.magnify c).ensure id a = (t.ensure id a).magnify c := by
  rw [ensure, ensure, contains_magnify, create_magnify]
  exact (apply_ite (magnify c) _ _ _).symm

theorem define_magnify (id : String) (a : Attributes) :
    (t.magnify c).define id a = (t.define id a).magnify c := by
  rw [define, define, ensure_magnify]
  exact modify_magnify c _ id fun _ => rfl

theorem suspend_magnify : (t.magnify c).suspend = t.suspend.magnify c := by
  unfold suspend
  rw [active_magnify]
  cases t.active with
  | none => rfl
  | some id =>
    exact congrArg (fun u : VoiceTable Rat => { u with active := none })
      (modify_magnify c t id (f := fun v => { v with savedTime := t.cursor, status := .suspended })
        (g := fun v => { v with savedTime := c * t.cursor, status := .suspended }) fun _ => rfl)

theorem activate_magnify (id : String) : (t.magnify c).activate id = (t.activate id).magnify c := by
  have hmodify := modify_magnify c t id (f := fun v => { v with status := .active })
    (g := fun v => { v with status := .active }) fun _ => rfl
  have hcursor : (((t.magnify c).find? id).map (·.savedTime)).getD (c * t.cursor) =
      c * ((t.find? id).map (·.savedTime)).getD t.cursor := by
    rw [find?_magnify]
    cases t.find? id <;> rfl
  unfold activate
  rw [hmodify]
  exact congrArg (fun cursor => { (t.modify id fun v => { v with status := .active }).magnify c with
    active := some id, cursor }) hcursor

theorem switchTo_magnify (id : String) : (t.magnify c).switchTo id = (t.switchTo id).magnify c := by
  rw [switchTo, switchTo, active_magnify, suspend_magnify, ensure_magnify, activate_magnify]
  exact (apply_ite (magnify c) _ _ _).symm

theorem ensureActive_magnify : (t.magnify c).ensureActive = t.ensureActive.magnify c := by
  rw [ensureActive, noteVoice_magnify, switchTo_magnify, ensureActive]

theorem ensureSettings_magnify : (t.magnify c).ensureSettings = t.ensureSettings.magnify c := by
  have hempty : (t.magnify c).voices.isEmpty = t.voices.isEmpty := List.isEmpty_map
  rw [ensureSettings, ensureSettings, active_magnify, hempty, define_magnify]
  exact (apply_ite (magnify c) _ _ _).symm

theorem latestTime_magnify (hc : 0 < c) : (t.magnify c).latestTime = c * t.latestTime := by
  have htimes : (((t.magnify c).voices.filter fun v => t.active ≠ some v.id).map (·.savedTime)) =
      ((t.voices.filter fun v => t.active ≠ some v.id).map (·.savedTime)).map (c * ·) := by
    rw [magnify, List.filter_map, List.map_map, List.map_map]
    rfl
  unfold latestTime
  rw [active_magnify, htimes]
  exact Beats.foldl_later_mul hc t.cursor _

theorem syncAll_magnify (hc : 0 < c) : (t.magnify c).syncAll = t.syncAll.magnify c := by
  unfold syncAll
  rw [latestTime_magnify c t hc]
  simp only [magnify, List.map_map]
  rfl

/-- What is asked of a table takes no notice of the unit of time. -/
theorem apply_magnify (hc : 0 < c) (op : Operation Rat) :
    (t.magnify c).apply (op.magnify c) = (t.apply op).magnify c := by
  cases op with
  | define id a => exact define_magnify c t id a
  | switchTo id => exact switchTo_magnify c t id
  | ensureActive => exact ensureActive_magnify c t
  | ensureSettings => exact ensureSettings_magnify c t
  | advance beats => exact advance_magnify c t beats
  | syncAll => exact syncAll_magnify c t hc

theorem magnify_empty : VoiceTable.empty.magnify c = VoiceTable.empty := by
  simp [magnify, empty, Beats.zero_eq]

end VoiceTable
end AbcTune
