import Mathlib.Data.List.Perm.Basic
import AbcTune.Proofs.Playback.Queue

/-! # Requests at any time

Requests of every kind may come before, between and after the phases of a tick, and the backend may
change from one phase to the next. Whatever the order, every slot that was queued is kept once or
was dropped once, and each step drops just the slots that it is there to drop.
-/
namespace AbcTune

inductive Request (β : Type) where
  | enqueue (tune : Tune β) (options : SlotOptions)
  | stop
  | pause
  | resume
  | skip
  | remove (id : Nat)
  | clear
  | setVolume (volume : Float32)
  | setTempo (tempo : β)
  | shutDown

/-- The slot that the phase under way is to retire. -/
def Phase.finished? {β : Type} : Phase β → Option (Slot β)
  | .played (.finished slot) _ => some slot
  | _ => none

namespace Station

inductive Step (β : Type) where
  | request (r : Request β)
  /-- The next phase of the ticker, with the backend as it is then. -/
  | proceed (b : Backend) (clock : Nat)

section Accounts

variable {β : Type} {st next : Station β} {gone : List (Slot β)}

/-- The slots that a step is to drop. A phase of a tick only drops the slot that it reports as
finished, and that only as long as it is the current one. -/
def dropped (st : Station β) : Step β → List (Slot β)
  | .request .stop => st.scheduler.slots
  | .request .skip => st.scheduler.current.toList
  | .request (.remove id) => st.scheduler.slots.filter (·.id = id)
  | .request .clear => st.scheduler.queue
  | .request _ => []
  | .proceed _ _ =>
    st.scheduler.current.toList.filter fun current =>
      st.phase.finished?.any (current.id = ·.id)

theorem phase_of_finished {phase : Phase β} {slot : Slot β} (h : phase.finished? = some slot) :
    ∃ now, phase = .played (.finished slot) now := by
  unfold Phase.finished? at h
  split at h
  · next now =>
    cases h
    exact ⟨now,rfl⟩
  · cases h

/-- No id is given twice, and the slots that were queued are those kept and those gone. -/
structure Accounted (st : Station β) (gone : List (Slot β)) : Prop where
  ids : (st.accepted.map Slot.id).Nodup
  issued : ∀ slot ∈ st.accepted, slot.id < st.scheduler.nextId
  kept : List.Perm st.accepted (st.scheduler.slots ++ gone)

theorem Accounted.nodup (h : Accounted st gone) :
    ((st.scheduler.slots ++ gone).map Slot.id).Nodup :=
  (h.kept.map Slot.id).nodup h.ids

theorem Accounted.nodup_slots (h : Accounted st gone) :
    (st.scheduler.slots.map Slot.id).Nodup := by
  have hboth := h.nodup
  rw [List.map_append] at hboth
  exact (List.nodup_append.mp hboth).1

theorem Accounted.disjoint (h : Accounted st gone) {slot : Slot β}
    (hkept : slot ∈ st.scheduler.slots) : slot ∉ gone := by
  intro hgone
  have hnodup := h.nodup
  rw [List.map_append] at hnodup
  exact (List.nodup_append.mp hnodup).2.2 slot.id (List.mem_map_of_mem hkept) slot.id
    (List.mem_map_of_mem hgone) rfl

theorem Accounted.drop (h : Accounted st gone) {slots : List (Slot β)}
    (haccepted : next.accepted = st.accepted)
    (hid : next.scheduler.nextId = st.scheduler.nextId)
    (hslots : List.Perm st.scheduler.slots (next.scheduler.slots ++ slots)) :
    Accounted next (gone ++ slots) := by
  constructor
  · rw [haccepted]
    exact h.ids
  · rw [haccepted, hid]
    exact h.issued
  · rw [haccepted]
    refine h.kept.trans ((hslots.append_right gone).trans ?_)
    rw [List.append_assoc]
    exact List.perm_append_comm.append_left _

theorem Accounted.enqueue (h : Accounted st gone) (tune : Tune β) (options : SlotOptions) :
    Accounted (st.enqueue tune options) gone := by
  rcases enqueue_cases st tune options with heq | heq
  · rw [heq]
    exact h
  · rw [heq]
    constructor
    · simp only [List.map_append, List.map_cons, List.map_nil]
      apply List.nodup_append.mpr
      refine ⟨h.ids,by simp,?_⟩
      intro id hid other hother
      obtain ⟨slot,hslot,rfl⟩ := List.mem_map.mp hid
      cases List.mem_singleton.mp hother
      exact (h.issued slot hslot).ne
    · intro slot hslot
      rcases List.mem_append.mp hslot with hslot | hslot
      · exact Nat.lt_succ_of_lt (h.issued slot hslot)
      · cases List.mem_singleton.mp hslot
        exact Nat.lt_succ_self _
    · simp only [Scheduler.slots, ← List.append_assoc]
      simp only [List.append_assoc _ _ gone]
      refine (h.kept.append_right _).trans ?_
      simp only [Scheduler.slots, List.append_assoc]
      exact (List.perm_append_comm.append_left _).append_left _

/-- Where ids are not given twice, one of them belongs to one slot at most. -/
theorem eraseP_id {slots : List (Slot β)} (h : (slots.map Slot.id).Nodup) (id : Nat) :
    slots.eraseP (·.id = id) = slots.filter (·.id ≠ id) := by
  induction slots with
  | nil => rfl
  | cons slot rest ih =>
    obtain ⟨hnot,hrest⟩ := List.nodup_cons.mp h
    by_cases hid : slot.id = id
    · rw [List.eraseP_cons_of_pos (by simp [hid]), List.filter_cons_of_neg (by simp [hid])]
      refine (List.filter_eq_self.mpr ?_).symm
      intro other hother
      have hne : other.id ≠ slot.id := fun heq => hnot (heq ▸ List.mem_map_of_mem hother)
      simpa [← hid] using hne
    · rw [List.eraseP_cons_of_neg (by simp [hid]), List.filter_cons_of_pos (by simp [hid]),
        ih hrest]

end Accounts

section Following

variable {β : Type} [Beats β] {st next : Station β} {gone : List (Slot β)}

def request (st : Station β) : Request β → Station β
  | .enqueue tune options => st.enqueue tune options
  | .stop => { st with scheduler := st.scheduler.stop }
  | .pause => { st with scheduler := st.scheduler.pause }
  | .resume => { st with scheduler := st.scheduler.resume }
  | .skip => { st with scheduler := st.scheduler.skip.1 }
  | .remove id => { st with scheduler := (st.scheduler.remove id).1 }
  | .clear => { st with scheduler := st.scheduler.clear.1 }
  | .setVolume volume => { st with scheduler := (st.scheduler.setVolume volume).1 }
  | .setTempo tempo => { st with scheduler := (st.scheduler.setTempo tempo).1 }
  | .shutDown => { st with scheduler := st.scheduler.requestShutdown }

def step (st : Station β) : Step β → Option (Station β)
  | .request r => some (st.request r)
  | .proceed b clock => st.proceed b clock

def follow : List (Step β) → Station β → Option (Station β)
  | [], st => some st
  | a :: rest, st => (st.step a).bind (follow rest)

def Action.toStep (b : Backend) : Action β → Step β
  | .enqueue tune options => .request (.enqueue tune options)
  | .proceed clock => .proceed b clock

/-- A run where tunes are queued and nothing else is asked is one among those with all requests. -/
theorem follow_map_toStep (b : Backend) (actions : List (Action β)) (st : Station β) :
    follow (actions.map (Action.toStep b)) st = run b actions st := by
  induction actions generalizing st with
  | nil => rfl
  | cons a rest ih =>
    have hstep : st.step (a.toStep b) = st.act b a := by cases a <;> rfl
    simp only [List.map_cons, follow, run, hstep, funext ih]

/-- All slots dropped in a run, in the order of dropping. -/
def departed : List (Step β) → Station β → List (Slot β)
  | [], _ => []
  | a :: rest, st => st.dropped a ++ (st.step a).elim [] (departed rest)

theorem accounted_new (slots notes usualGap now : Nat) (volume : Float32) (tempo : β)
    (available : Bool) :
    Accounted (new (.new slots volume tempo available) (.new usualGap notes now)) [] where
  ids := .nil
  issued := by simp [new]
  kept := .nil

/-! ## What each step drops -/

omit [Beats β] in
theorem isCurrent_iff {s : Scheduler β} {id : Nat} :
    s.isCurrent id ↔ ∃ slot, s.current = some slot ∧ slot.id = id := by
  cases h : s.current <;> simp [Scheduler.isCurrent, h]

theorem slots_remove {s : Scheduler β} (h : (s.slots.map Slot.id).Nodup) (id : Nat) :
    (s.remove id).1.slots = s.slots.filter (·.id ≠ id) := by
  rw [← eraseP_id h]
  unfold Scheduler.remove
  split
  · next hcurrent =>
    obtain ⟨slot,hslot,hid⟩ := isCurrent_iff.mp hcurrent
    have hslots : s.slots = slot :: s.queue := by simp [Scheduler.slots, hslot]
    rw [hslots, List.eraseP_cons_of_pos (by simpa using hid)]
    exact s.slots_advanceQueue
  · next hcurrent =>
    have hnot : ∀ slot ∈ s.current.toList, ¬decide (slot.id = id) = true := by
      intro slot hslot hid
      exact hcurrent (isCurrent_iff.mpr ⟨slot,Option.mem_toList.mp hslot,of_decide_eq_true hid⟩)
    have herase : s.slots.eraseP (·.id = id) = s.current.toList ++ s.queue.eraseP (·.id = id) :=
      List.eraseP_append_right s.queue hnot
    rw [herase]
    split
    · rfl
    · next hqueue =>
      rw [List.eraseP_of_forall_not (by simpa using hqueue)]
      rfl

theorem slots_snapshot (t : Ticker β) (s : Scheduler β) (now : Nat) (available : Bool) :
    (t.snapshot s now available).2.1.slots = s.slots ∧
      (t.snapshot s now available).2.1.nextId = s.nextId := by
  obtain ⟨gap,next,hcopy,rfl | ⟨hnone,rfl⟩⟩ := snapshot_cases t s now available
  · rw [hcopy]
    exact ⟨rfl,rfl⟩
  · rw [hcopy, Scheduler.slots_advanceQueue, Scheduler.slots, hnone]
    exact ⟨rfl,rfl⟩

/-- A slot that is no longer the current one is not retired. -/
theorem finish_of_not_current (t : Ticker β) {s : Scheduler β} {slot : Slot β}
    (h : ¬s.isCurrent slot.id) (now : Nat) : t.finish s slot now = (t,s) :=
  if_neg h

theorem slots_finish (t : Ticker β) (s : Scheduler β) (slot : Slot β) (now : Nat) :
    s.slots = s.current.toList.filter (·.id = slot.id) ++ (t.finish s slot now).2.slots ∧
      (t.finish s slot now).2.nextId = s.nextId := by
  by_cases h : s.isCurrent slot.id
  · obtain ⟨current,hcurrent,hid⟩ := isCurrent_iff.mp h
    have hslots : s.slots = s.current.toList.filter (·.id = slot.id) ++ s.queue := by
      simp [Scheduler.slots, hcurrent, hid]
    rw [hslots, Ticker.finish, if_pos h]
    dsimp only
    split
    · rw [Scheduler.slots_advanceQueue]
      exact ⟨rfl,rfl⟩
    · exact ⟨rfl,rfl⟩
  · have hnone : s.current.toList.filter (·.id = slot.id) = [] := by
      apply List.filter_eq_nil_iff.mpr
      intro other hother hid
      exact h (isCurrent_iff.mpr ⟨other,Option.mem_toList.mp hother,of_decide_eq_true hid⟩)
    rw [finish_of_not_current t h, hnone]
    exact ⟨rfl,rfl⟩

theorem Accounted.request (h : Accounted st gone) (r : Request β) :
    Accounted (st.request r) (gone ++ st.dropped (.request r)) := by
  have hkeep : ∀ s : Scheduler β, s.slots = st.scheduler.slots → s.nextId = st.scheduler.nextId →
      Accounted { st with scheduler := s } (gone ++ []) := by
    intro s hslots hid
    exact h.drop rfl hid (by simp [hslots])
  cases r with
  | enqueue tune options => simpa [dropped, Station.request] using h.enqueue tune options
  | stop => exact h.drop rfl rfl (.refl _)
  | skip =>
    refine h.drop rfl rfl ?_
    rw [Station.request, Scheduler.skip, Scheduler.slots_advanceQueue]
    exact List.perm_append_comm
  | remove id =>
    refine h.drop rfl ?_ ?_
    · simp only [Station.request, Scheduler.remove]
      split
      · rfl
      · split <;> rfl
    · rw [Station.request, slots_remove h.nodup_slots]
      simpa [dropped] using
        ((List.filter_append_perm (·.id = id) st.scheduler.slots).symm.trans
          List.perm_append_comm)
  | clear =>
    refine h.drop rfl rfl ?_
    simp [Station.request, Scheduler.clear, Scheduler.slots, dropped]
  | setVolume volume =>
    have hnew : (st.scheduler.setVolume volume).1.slots = st.scheduler.slots ∧
        (st.scheduler.setVolume volume).1.nextId = st.scheduler.nextId := by
      unfold Scheduler.setVolume
      split <;> exact ⟨rfl,rfl⟩
    exact hkeep _ hnew.1 hnew.2
  | setTempo tempo =>
    have hnew : (st.scheduler.setTempo tempo).1.slots = st.scheduler.slots ∧
        (st.scheduler.setTempo tempo).1.nextId = st.scheduler.nextId := by
      unfold Scheduler.setTempo
      split <;> exact ⟨rfl,rfl⟩
    exact hkeep _ hnew.1 hnew.2
  | _ => exact hkeep _ rfl rfl

theorem Accounted.proceed (h : Accounted st gone) {b : Backend} {clock : Nat}
    (hnext : st.proceed b clock = some next) :
    Accounted next (gone ++ st.dropped (.proceed b clock)) := by
  cases hphase : st.phase with
  | idle =>
    rcases hcopy : Ticker.snapshot { st.ticker with lastTick := clock } st.scheduler clock
      b.available with ⟨t,s,snap⟩
    have hslots :=
      slots_snapshot { st.ticker with lastTick := clock } st.scheduler clock b.available
    rw [hcopy] at hslots
    simp only [Station.proceed, hphase, hcopy, Option.some.injEq] at hnext
    subst hnext
    exact h.drop rfl hslots.2 (by simp [dropped, Phase.finished?, hphase, hslots.1])
  | copied snap elapsed now =>
    simp only [Station.proceed, hphase] at hnext
    obtain ⟨played,-,rfl⟩ := Option.map_eq_some_iff.mp hnext
    exact h.drop rfl rfl (by simp [dropped, Phase.finished?, hphase])
  | played report now =>
    simp only [Station.proceed, hphase, Option.some.injEq] at hnext
    subst hnext
    cases report with
    | nothing => exact h.drop rfl rfl (by simp [dropped, Phase.finished?, hphase, Ticker.report])
    | position beats =>
      refine h.drop rfl rfl ?_
      simp [dropped, Phase.finished?, hphase, Ticker.report, Scheduler.slots]
    | finished slot =>
      obtain ⟨hslots,hid⟩ := slots_finish st.ticker st.scheduler slot now
      refine h.drop rfl hid ?_
      rw [hslots]
      simpa [dropped, Phase.finished?, hphase, Ticker.report] using List.perm_append_comm

theorem Accounted.step (h : Accounted st gone) {a : Step β} (hnext : st.step a = some next) :
    Accounted next (gone ++ st.dropped a) := by
  cases a with
  | request r =>
    cases Option.some.inj hnext
    exact h.request r
  | proceed b clock => exact h.proceed hnext

theorem Accounted.follow (h : Accounted st gone) {steps : List (Step β)} {last : Station β}
    (hrun : follow steps st = some last) : Accounted last (gone ++ departed steps st) := by
  induction steps generalizing st gone with
  | nil =>
    cases Option.some.inj hrun
    rw [departed, List.append_nil]
    exact h
  | cons a rest ih =>
    obtain ⟨next,hnext,hrest⟩ := Option.bind_eq_some_iff.mp hrun
    have hlast := ih (h.step hnext) hrest
    rw [departed, hnext]
    rwa [List.append_assoc] at hlast

/-- Slots only come in where a tune is queued. -/
theorem accepted_cases {a : Step β} (hnext : st.step a = some next) :
    next.accepted = st.accepted ∨
      ∃ slot : Slot β, a = .request (.enqueue slot.tune slot.options) ∧
        next.accepted = st.accepted ++ [slot] := by
  cases a with
  | request r =>
    cases Option.some.inj hnext
    cases r with
    | enqueue tune options =>
      rcases enqueue_cases st tune options with heq | heq
      · exact .inl (congrArg Station.accepted heq)
      · exact .inr ⟨_,rfl,congrArg Station.accepted heq⟩
    | _ => exact .inl rfl
  | proceed b clock =>
    simp only [Station.step, Station.proceed] at hnext
    split at hnext
    · cases Option.some.inj hnext
      exact .inl rfl
    · obtain ⟨played,-,rfl⟩ := Option.map_eq_some_iff.mp hnext
      exact .inl rfl
    · cases Option.some.inj hnext
      exact .inl rfl

theorem accepted_subset {a : Step β} (hnext : st.step a = some next) :
    st.accepted ⊆ next.accepted := by
  rcases accepted_cases hnext with heq | ⟨slot,-,heq⟩
  · rw [heq]
    exact List.Subset.refl _
  · rw [heq]
    exact List.subset_append_left _ _

theorem mem_accepted_of_follow {steps : List (Step β)} {last : Station β}
    (hrun : follow steps st = some last) {slot : Slot β} (hslot : slot ∈ last.accepted) :
    slot ∈ st.accepted ∨ .request (.enqueue slot.tune slot.options) ∈ steps := by
  induction steps generalizing st with
  | nil =>
    cases Option.some.inj hrun
    exact .inl hslot
  | cons a rest ih =>
    obtain ⟨next,hnext,hrest⟩ := Option.bind_eq_some_iff.mp hrun
    rcases ih hrest with hmem | hmem
    · rcases accepted_cases hnext with heq | ⟨other,rfl,heq⟩
      · exact .inl (heq ▸ hmem)
      · rw [heq, List.mem_append, List.mem_singleton] at hmem
        rcases hmem with hmem | rfl
        · exact .inl hmem
        · exact .inr List.mem_cons_self
    · exact .inr (List.mem_cons_of_mem a hmem)

/-- A step keeps what it does not drop, and nothing comes back. -/
theorem Accounted.mem_next_iff (h : Accounted st gone) {a : Step β} (hnext : st.step a = some next)
    {slot : Slot β} (hslot : slot ∈ st.accepted) :
    slot ∈ next.scheduler.slots ↔ slot ∈ st.scheduler.slots ∧ slot ∉ st.dropped a := by
  have hafter := h.step hnext
  have hbefore := List.mem_append.mp (h.kept.mem_iff.mp hslot)
  constructor
  · intro hkept
    have hnot := hafter.disjoint hkept
    rw [List.mem_append, not_or] at hnot
    exact ⟨hbefore.resolve_right hnot.1,hnot.2⟩
  · rintro ⟨hkept,hdropped⟩
    have hmem := hafter.kept.mem_iff.mp (accepted_subset hnext hslot)
    rw [List.mem_append, List.mem_append] at hmem
    rcases hmem with hmem | hgone | hmem
    · exact hmem
    · exact absurd hgone (h.disjoint hkept)
    · exact absurd hmem hdropped

/-- From an empty queue, whatever the order of requests and phases, no id is given twice, and the
slots that were queued are the current one, those in the queue and those that were dropped, each of
them once. A step drops just what it is there to drop, and what is gone does not come back. A slot
that was replaced before it is reported as finished leaves no trace in the report. -/
theorem follow_accounted (slots notes usualGap start : Nat) (volume : Float32) (tempo : β)
    (available : Bool) (steps : List (Step β)) {last : Station β}
    (hrun : follow steps (new (.new slots volume tempo available) (.new usualGap notes start)) =
      some last) :
    (last.accepted.map Slot.id).Nodup ∧
      List.Perm last.accepted
        (last.scheduler.current.toList ++ last.scheduler.queue ++
          departed steps (new (.new slots volume tempo available) (.new usualGap notes start))) ∧
      (∀ a next, last.step a = some next → ∀ slot ∈ last.accepted,
        slot ∈ next.scheduler.slots ↔ slot ∈ last.scheduler.slots ∧ slot ∉ last.dropped a) ∧
      ∀ slot, last.phase.finished? = some slot → ¬last.scheduler.isCurrent slot.id →
        ∀ b clock, last.step (.proceed b clock) = some { last with phase := .idle } := by
  have hlast := (accounted_new slots notes usualGap start volume tempo available).follow hrun
  refine ⟨hlast.ids,hlast.kept,?_,?_⟩
  · intro a next hnext slot hslot
    exact hlast.mem_next_iff hnext hslot
  · intro slot hfinished hnot b clock
    obtain ⟨now,hphase⟩ := phase_of_finished hfinished
    simp only [Station.step, Station.proceed, hphase, Ticker.report,
      finish_of_not_current last.ticker hnot]

/-- Of three tunes the first is played to its end, but skipped before that is reported, and the last
one is removed. -/
theorem follow_accounted_skipped :
    ∃ (steps : List (Step Rat)) (last : Station Rat) (slot : Slot Rat),
      follow steps (new (.new 8 1.0 1 true) (.new 0 4 0)) = some last ∧
        last.accepted.map Slot.id = [1, 2, 3] ∧ last.scheduler.slots.map Slot.id = [2] ∧
        (departed steps (new (.new 8 1.0 1 true) (.new 0 4 0))).map Slot.id = [1, 3] ∧
        last.phase.finished? = some slot ∧ slot.id = 1 ∧
        (last.accepted.map Slot.id).Nodup ∧
        last.step (.proceed .accepting 0) = some { last with phase := .idle } := by
  let tune : Tune Rat := Tune.empty (.initial 1)
  let steps : List (Step Rat) :=
    List.replicate 3 (.request (.enqueue tune .once)) ++
      List.replicate 5 (.proceed .accepting 0) ++ [.request .skip, .request (.remove 3)]
  let start : Station Rat := new (.new 8 1.0 1 true) (.new 0 4 0)
  have hevaluated : (follow steps start).map (fun last =>
      (last.accepted.map Slot.id,last.scheduler.slots.map Slot.id,
        last.scheduler.isCurrent 1,last.phase.finished?.map Slot.id)) =
      some ([1, 2, 3],[2],false,some 1) := by
    decide +kernel
  have hdeparted : (departed steps start).map Slot.id = [1, 3] := by decide +kernel
  obtain ⟨last,hrun,hlast⟩ := Option.map_eq_some_iff.mp hevaluated
  obtain ⟨hids,-,-,hreport⟩ := follow_accounted 8 4 0 0 1.0 1 true steps hrun
  simp only [Prod.mk.injEq] at hlast
  obtain ⟨haccepted,hslots,hcurrent,hfinished⟩ := hlast
  obtain ⟨slot,hslot,hid⟩ := Option.map_eq_some_iff.mp hfinished
  refine ⟨steps,last,slot,hrun,haccepted,hslots,hdeparted,hslot,hid,hids,?_⟩
  apply hreport slot hslot
  simp [hid, hcurrent]

end Following

end Station
end AbcTune
