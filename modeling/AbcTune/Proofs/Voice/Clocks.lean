import AbcTune.Proofs.Beat.Exact
import AbcTune.Proofs.Voice.Each

/-! # A clock for each voice

A table keeps one running cursor, and the time that is saved in the active voice is out of date.
Seen from outside each voice has a clock of its own: switching, defining and creating voices leave
all clocks alone, music moves the clock of the active voice, and a sync sets all of them to the
latest.
-/
namespace AbcTune.VoiceTable

/-- What is asked of a table while a tune is read. -/
inductive Operation (β : Type) where
  | define (id : String) (a : Attributes)
  | switchTo (id : String)
  | ensureActive
  | ensureSettings
  | advance (beats : β)
  | syncAll

/-- Operations that neither pass time nor bring voices together. -/
def Operation.keepsTime {β : Type} : Operation β → Bool
  | .advance _ | .syncAll => false
  | _ => true

variable {β : Type} [Beats β] {t : VoiceTable β} {id : String}

def apply (t : VoiceTable β) : Operation β → VoiceTable β
  | .define id a => t.define id a
  | .switchTo id => t.switchTo id
  | .ensureActive => t.ensureActive
  | .ensureSettings => t.ensureSettings
  | .advance beats => t.advance beats
  | .syncAll => t.syncAll

def run (t : VoiceTable β) (ops : List (Operation β)) : VoiceTable β := ops.foldl apply t

/-- Time only passes in an active voice. -/
def Proper : VoiceTable β → List (Operation β) → Prop
  | _, [] => True
  | t, .advance beats :: rest => t.active.isSome ∧ Proper (t.advance beats) rest
  | t, op :: rest => Proper (t.apply op) rest

/-! ## Voices that come and stay -/

theorem clock_of_not_contains (h : t.contains id = false) (hactive : t.active ≠ some id) :
    t.clock id = 0.0 := by
  rw [contains_eq_isSome, Option.isSome_eq_false_iff, Option.isNone_iff_eq_none] at h
  rw [clock_of_ne hactive, h]
  rfl

theorem clock_modify (f : Voice β → Voice β) (hid : ∀ v, v.id = id → (f v).id = id)
    (htime : ∀ v, (f v).savedTime = v.savedTime) (other : String) :
    (t.modify id f).clock other = t.clock other := by
  have hfind : ((t.modify id f).find? other).map (·.savedTime) =
      (t.find? other).map (·.savedTime) := by
    by_cases hne : other = id
    · subst hne
      rw [find?_modify f hid, Option.map_map]
      exact congrArg (Option.map · _) (funext htime)
    · rw [find?_modify_of_ne f hid hne]
  unfold clock
  rw [hfind]
  rfl

theorem cursor_create (t : VoiceTable β) (id : String) (a : Attributes) :
    (t.create id a).cursor = t.cursor := by
  unfold create
  dsimp only
  split
  · rfl
  · split <;> rfl

/-- A new voice starts at the first beat, and that is where a voice that is not there is taken
to be. -/
theorem clock_ensure (t : VoiceTable β) (id : String) (a : Attributes) (other : String) :
    (t.ensure id a).clock other = t.clock other := by
  unfold ensure
  split
  · rfl
  · obtain ⟨v,hvoices,-,-,htime,hactive⟩ := create_spec t id a
    have hfind : (((t.create id a).find? other).map (·.savedTime)).getD 0.0 =
        ((t.find? other).map (·.savedTime)).getD 0.0 := by
      unfold find?
      rw [hvoices, List.find?_append]
      cases t.voices.find? (·.id = other) with
      | some w => rfl
      | none =>
        by_cases hv : v.id = other
        · simp [hv, htime]
        · simp [hv]
    unfold clock
    rw [hactive, cursor_create, hfind]

theorem clock_define (t : VoiceTable β) (id : String) (a : Attributes) (other : String) :
    (t.define id a).clock other = t.clock other := by
  rw [define, clock_modify (·.withAttributes a) (fun _ hv => hv) fun _ => rfl, clock_ensure]

theorem clock_switchTo (h : t.HasActive) (id other : String) :
    (t.switchTo id).clock other = t.clock other := by
  unfold switchTo
  split
  · rfl
  · have hactive : (t.suspend.ensure id .none).active = none := by
      rw [active_ensure, active_suspend]
    have hcontains : (t.suspend.ensure id .none).contains id = true :=
      (contains_ensure _ _ _ _).mpr (.inl rfl)
    have hactivate := congrArg cursor (solo_activate hactive hcontains other)
    have hsuspend := congrArg cursor (solo_suspend h other)
    exact hactivate.trans ((clock_ensure _ _ _ _).trans hsuspend)

theorem clock_ensureSettings (t : VoiceTable β) (other : String) :
    t.ensureSettings.clock other = t.clock other := by
  unfold ensureSettings
  split
  · rfl
  · exact clock_define t implicitVoice .none other

theorem clock_apply (h : t.HasActive) {op : Operation β} (hop : op.keepsTime = true)
    (other : String) : (t.apply op).clock other = t.clock other := by
  cases op with
  | define id a => exact clock_define t id a other
  | switchTo id => exact clock_switchTo h id other
  | ensureActive => exact clock_switchTo h t.noteVoice other
  | ensureSettings => exact clock_ensureSettings t other
  | advance | syncAll => cases hop

/-! ## The voices of a table -/

theorem order_define (t : VoiceTable β) (id : String) (a : Attributes) :
    (t.define id a).order = (t.ensure id a).order :=
  order_modify (·.withAttributes a) fun _ hv => hv

theorem isPrefix_order_ensure (t : VoiceTable β) (id : String) (a : Attributes) :
    t.order <+: (t.ensure id a).order := by
  rw [order_ensure]
  split
  · exact List.prefix_rfl
  · exact List.prefix_append _ _

theorem isPrefix_order_define (t : VoiceTable β) (id : String) (a : Attributes) :
    t.order <+: (t.define id a).order :=
  order_define t id a ▸ isPrefix_order_ensure t id a

theorem isPrefix_order_switchTo (t : VoiceTable β) (id : String) :
    t.order <+: (t.switchTo id).order := by
  unfold switchTo
  split
  · exact List.prefix_rfl
  · rw [order_activate, ← order_suspend t]
    exact isPrefix_order_ensure _ _ _

theorem isPrefix_order_ensureSettings (t : VoiceTable β) : t.order <+: t.ensureSettings.order := by
  unfold ensureSettings
  split
  · exact List.prefix_rfl
  · exact isPrefix_order_define t implicitVoice .none

theorem order_syncAll (t : VoiceTable β) : t.syncAll.order = t.order := List.map_map

/-- Voices stay, and new ones come behind them. -/
theorem isPrefix_order_apply (t : VoiceTable β) (op : Operation β) :
    t.order <+: (t.apply op).order := by
  cases op with
  | define id a => exact isPrefix_order_define t id a
  | switchTo id => exact isPrefix_order_switchTo t id
  | ensureActive => exact isPrefix_order_switchTo t t.noteVoice
  | ensureSettings => exact isPrefix_order_ensureSettings t
  | advance beats => exact List.prefix_rfl
  | syncAll => exact (order_syncAll t).symm ▸ List.prefix_rfl

theorem contains_apply (op : Operation β) (h : t.contains id = true) :
    (t.apply op).contains id = true := by
  rw [contains_iff] at h ⊢
  exact (isPrefix_order_apply t op).subset h

/-! ## Tables that operations lead to -/

/-- Ids are used once, the active voice is there, and no time has passed before there is one. -/
structure Timed (t : VoiceTable β) : Prop where
  order : t.order.Nodup
  active : t.HasActive
  idle : t.active = none → t.cursor = 0.0 ∧ ∀ v ∈ t.voices, v.savedTime = 0.0

theorem timed_empty : (empty : VoiceTable β).Timed :=
  ⟨List.nodup_nil,fun _ hid => (Option.not_mem_none _ hid).elim,
    fun _ => ⟨rfl,fun _ hv => (List.not_mem_nil hv).elim⟩⟩

theorem Timed.eachNotes (h : t.Timed) : t.EachNotes fun _ => True := ⟨h.order,fun _ _ => trivial⟩

theorem cursor_ensure (t : VoiceTable β) (id : String) (a : Attributes) :
    (t.ensure id a).cursor = t.cursor := by
  unfold ensure
  split
  · rfl
  · exact cursor_create t id a

theorem cursor_define (t : VoiceTable β) (id : String) (a : Attributes) :
    (t.define id a).cursor = t.cursor := cursor_ensure t id a

theorem Timed.define (h : t.Timed) (id : String) (a : Attributes) : (t.define id a).Timed where
  order := (h.eachNotes.define trivial id a).order
  active := h.active.define id a
  idle := by
    intro hnone
    rw [active_define] at hnone
    obtain ⟨hcursor,htimes⟩ := h.idle hnone
    have heach : t.Each fun v => v.savedTime = 0.0 := ⟨h.order,htimes⟩
    exact ⟨(cursor_define t id a).trans hcursor,
      (heach.define (fun _ _ hv => hv) (fun _ _ hv => hv) id a).voices⟩

theorem Timed.switchTo (h : t.Timed) (id : String) : (t.switchTo id).Timed where
  order := (h.eachNotes.switchTo trivial id).order
  active := h.active.switchTo id
  idle := by
    intro hnone
    rw [active_switchTo] at hnone
    cases hnone

theorem Timed.ensureSettings (h : t.Timed) : t.ensureSettings.Timed := by
  unfold VoiceTable.ensureSettings
  split
  · exact h
  · exact h.define implicitVoice .none

theorem Timed.advance (h : t.Timed) (hactive : t.active.isSome) (beats : β) :
    (t.advance beats).Timed where
  order := h.order
  active := h.active
  idle := by
    intro hnone
    change t.active = none at hnone
    rw [hnone] at hactive
    cases hactive

theorem foldl_later_zero {xs : List β} (h : ∀ x ∈ xs, x = 0.0) :
    xs.foldl Beats.later 0.0 = 0.0 := by
  induction xs with
  | nil => rfl
  | cons x xs ih =>
    have hzero : Beats.later (0.0 : β) 0.0 = 0.0 := by
      unfold Beats.later
      split
      · rfl
      · split <;> rfl
    rw [List.foldl_cons, h x List.mem_cons_self, hzero]
    exact ih fun y hy => h y (List.mem_cons_of_mem _ hy)

/-- Before the first note all clocks are at the first beat, and a sync leaves them there. -/
theorem Timed.latestTime_of_idle (h : t.Timed) (hnone : t.active = none) : t.latestTime = 0.0 := by
  obtain ⟨hcursor,htimes⟩ := h.idle hnone
  unfold VoiceTable.latestTime
  rw [hcursor]
  apply foldl_later_zero
  intro x hx
  obtain ⟨v,hv,rfl⟩ := List.mem_map.mp hx
  exact htimes v (List.mem_of_mem_filter hv)

theorem Timed.syncAll (h : t.Timed) : t.syncAll.Timed where
  order := h.eachNotes.syncAll.order
  active := h.active.syncAll
  idle := by
    intro hnone
    have hlatest := h.latestTime_of_idle hnone
    refine ⟨hlatest,fun v hv => ?_⟩
    obtain ⟨w,-,rfl⟩ := List.mem_map.mp hv
    exact hlatest

theorem Timed.run (h : t.Timed) {ops : List (Operation β)} (hproper : t.Proper ops) :
    (t.run ops).Timed := by
  induction ops generalizing t with
  | nil => exact h
  | cons op rest ih =>
    cases op with
    | define id a => exact ih (h.define id a) hproper
    | switchTo id => exact ih (h.switchTo id) hproper
    | ensureActive => exact ih (h.switchTo t.noteVoice) hproper
    | ensureSettings => exact ih h.ensureSettings hproper
    | advance beats => exact ih (h.advance hproper.1 beats) hproper.2
    | syncAll => exact ih h.syncAll hproper

/-! ## All clocks together -/

theorem find?_syncAll (t : VoiceTable β) (id : String) :
    t.syncAll.find? id = (t.find? id).map fun v => { v with savedTime := t.latestTime } := by
  unfold VoiceTable.syncAll find?
  rw [List.find?_map]
  rfl

theorem clock_syncAll (h : t.HasActive) (id : String) :
    t.syncAll.clock id = if t.contains id then t.latestTime else 0.0 := by
  by_cases hactive : t.active = some id
  · rw [clock_of_active (t := t.syncAll) hactive, if_pos (h id hactive)]
    rfl
  · rw [clock_of_ne (t := t.syncAll) hactive, find?_syncAll, contains_eq_isSome]
    cases t.find? id <;> rfl

theorem Timed.clock_eq (h : t.Timed) {v : Voice β} (hv : v ∈ t.voices) :
    t.clock v.id = if t.active = some v.id then t.cursor else v.savedTime := by
  unfold clock
  rw [find?, find?_of_nodup h.order hv]
  rfl

theorem Timed.close_eq (h : t.Timed) :
    t.close.map (fun v => (v.id,v.savedTime)) = t.order.map fun id => (id,t.clock id) := by
  unfold VoiceTable.order
  rw [List.map_map]
  cases hactive : t.active with
  | none =>
    rw [close, hactive]
    refine List.map_congr_left fun v hv => ?_
    rw [Function.comp_apply, h.clock_eq hv, hactive, if_neg (by simp)]
  | some a =>
    rw [close, hactive]
    change (t.voices.map _).map _ = _
    rw [List.map_map]
    refine List.map_congr_left fun v hv => ?_
    rw [Function.comp_apply, Function.comp_apply, h.clock_eq hv, hactive]
    by_cases hid : v.id = a
    · rw [if_pos hid, if_pos (congrArg some hid.symm)]
    · rw [if_neg hid, if_neg fun heq => hid (Option.some.inj heq).symm]

/-- The cursor and the times saved in the other voices are all clocks there are. The time saved in
the active voice is not among them. -/
theorem Timed.exists_clock_iff (h : t.Timed) (hid : t.contains id = true) (x : β) :
    (∃ other, t.contains other = true ∧ t.clock other = x) ↔
      x = t.cursor ∨
        x ∈ (t.voices.filter fun v => t.active ≠ some v.id).map (·.savedTime) := by
  constructor
  · rintro ⟨other,hother,rfl⟩
    by_cases hactive : t.active = some other
    · exact .inl (clock_of_active hactive)
    · obtain ⟨v,hv⟩ := exists_find? hother
      obtain rfl := find?_id hv
      have hmem := List.mem_of_find?_eq_some hv
      rw [h.clock_eq hmem, if_neg hactive]
      exact .inr (List.mem_map_of_mem (List.mem_filter.mpr ⟨hmem,decide_eq_true hactive⟩))
  · rintro (rfl | hx)
    · cases hactive : t.active with
      | some a => exact ⟨a,h.active a hactive,clock_of_active hactive⟩
      | none =>
        obtain ⟨v,hv⟩ := exists_find? hid
        obtain ⟨hcursor,htimes⟩ := h.idle hactive
        refine ⟨id,hid,?_⟩
        rw [clock_of_ne (by simp [hactive]), hv, hcursor]
        exact htimes v (List.mem_of_find?_eq_some hv)
    · obtain ⟨v,hv,rfl⟩ := List.mem_map.mp hx
      obtain ⟨hmem,hactive⟩ := List.mem_filter.mp hv
      refine ⟨v.id,(contains_iff t v.id).mpr (List.mem_map_of_mem hmem),?_⟩
      rw [h.clock_eq hmem, if_neg (of_decide_eq_true hactive)]

theorem Timed.isGreatest_syncAll {t : VoiceTable Rat} (h : t.Timed) (hid : t.contains id = true) :
    IsGreatest {x | ∃ other, t.contains other = true ∧ t.clock other = x}
      (t.syncAll.clock id) := by
  rw [clock_syncAll h.active, if_pos hid]
  have htimes := Set.ext (h.exists_clock_iff hid)
  exact htimes ▸ Beats.isGreatest_foldl_later _ _

/-- Whatever was asked of a table before, voices keep their clocks while they are defined, switched
and created, and a new one starts at the first beat. Time only passes for the active voice, a sync
brings every voice to the latest clock of all, and at the end each voice has its clock saved. -/
theorem run_clocks {ops : List (Operation Rat)} {t : VoiceTable Rat} (hproper : empty.Proper ops)
    (hrun : empty.run ops = t) :
    (∀ op : Operation Rat, op.keepsTime = true → ∀ id,
      (t.contains id = true →
        (t.apply op).contains id = true ∧ (t.apply op).clock id = t.clock id) ∧
      (t.contains id = false → (t.apply op).contains id = true → (t.apply op).clock id = 0)) ∧
    (∀ id, t.active = some id → ∀ beats,
      (t.advance beats).clock id = t.clock id + beats ∧
        ∀ other, other ≠ id → (t.advance beats).clock other = t.clock other) ∧
    (∀ id, t.contains id = true →
      IsGreatest {x | ∃ other, t.contains other = true ∧ t.clock other = x}
        (t.syncAll.clock id)) ∧
    t.close.map (fun v => (v.id,v.savedTime)) = t.order.map fun id => (id,t.clock id) := by
  have htimed : t.Timed := hrun ▸ timed_empty.run hproper
  refine ⟨fun op hop id => ⟨fun hid => ?_,fun hid _ => ?_⟩,fun id hactive beats => ⟨?_,?_⟩,
    fun id hid => htimed.isGreatest_syncAll hid,htimed.close_eq⟩
  · exact ⟨contains_apply op hid,clock_apply htimed.active hop id⟩
  · have hactive : t.active ≠ some id := by
      intro hactive
      rw [htimed.active id hactive] at hid
      cases hid
    rw [clock_apply htimed.active hop, clock_of_not_contains hid hactive, Beats.zero_eq]
  · rw [clock_of_active hactive]
    exact clock_of_active (t := t.advance beats) hactive
  · intro other hne
    have hother : t.active ≠ some other := fun h => hne (Option.some.inj (h.symm.trans hactive))
    rw [clock_of_ne hother]
    exact clock_of_ne (t := t.advance beats) hother

/-- The first voice is taken up again, and what was saved in it is out of date. -/
theorem run_clocks_resumed :
    ∃ (ops : List (Operation Rat)) (t : VoiceTable Rat), empty.Proper ops ∧ empty.run ops = t ∧
      t.active = some "1" ∧ (t.find? "1").map (·.savedTime) = some 2 ∧
      t.close.map (fun v => (v.id,v.savedTime)) = [("1",5/2),("2",3)] ∧
      IsGreatest {x | ∃ other, t.contains other = true ∧ t.clock other = x}
        (t.syncAll.clock "1") := by
  let ops : List (Operation Rat) :=
    [.switchTo "1",.advance 2,.switchTo "2",.advance 3,.switchTo "1",.advance (1/2)]
  have hproper : empty.Proper ops := ⟨rfl,rfl,rfl,trivial⟩
  obtain ⟨-,-,hsync,hclose⟩ := run_clocks hproper rfl
  refine ⟨ops,empty.run ops,hproper,rfl,rfl,by decide +kernel,?_,hsync "1" (by decide +kernel)⟩
  rw [hclose]
  decide +kernel

end AbcTune.VoiceTable
