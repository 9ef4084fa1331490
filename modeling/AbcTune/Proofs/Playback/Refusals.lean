import AbcTune.Proofs.Playback.Order

/-! # Requests that are refused

A request is refused before anything is changed, so that nothing is left of it. And as tunes are the
only slots that come in, and are refused by a full queue, no order of requests and phases makes the
queue longer than it may be.
-/
namespace AbcTune

namespace Scheduler

variable {β : Type} [Beats β] {s next : Scheduler β} {most : Nat}

def problemOf {α : Type} : Except (SchedulerProblem β) α → Option (SchedulerProblem β)
  | .ok _ => none
  | .error p => some p

/-- What is wrong with a request, as the answer to it says. -/
def problem? (s : Scheduler β) : Request β → Option (SchedulerProblem β)
  | .enqueue tune options => problemOf (s.enqueue tune options).2
  | .remove id => problemOf (s.remove id).2
  | .setVolume volume => problemOf (s.setVolume volume).2
  | .setTempo tempo => problemOf (s.setTempo tempo).2
  | _ => none

/-- What a request has to meet. -/
def Admits (s : Scheduler β) : Request β → Prop
  | .enqueue tune _ =>
    tune.isComplete ∧ s.shutDown = false ∧ s.available ∧ s.queue.length < s.capacity
  | .remove id => ∃ slot ∈ s.slots, slot.id = id
  | .setVolume volume => isVolume volume
  | .setTempo tempo => isTempo tempo
  | _ => True

/-! ## What is refused -/

omit [Beats β] in
theorem problemOf_enqueue (s : Scheduler β) (tune : Tune β) (options : SlotOptions) :
    problemOf (s.enqueue tune options).2 = s.refusal? tune := by
  unfold enqueue
  cases s.refusal? tune <;> rfl

omit [Beats β] in
theorem refusal?_eq_none_iff (s : Scheduler β) (tune : Tune β) :
    s.refusal? tune = none ↔
      tune.isComplete ∧ s.shutDown = false ∧ s.available ∧ s.queue.length < s.capacity := by
  unfold refusal?
  cases tune.isComplete <;> cases s.shutDown <;> cases s.available <;> simp

omit [Beats β] in
/-- A full queue is the last reason to be given. -/
theorem refusal?_eq_queueFull_iff (s : Scheduler β) (tune : Tune β) :
    s.refusal? tune = some (.queueFull s.capacity) ↔
      tune.isComplete ∧ s.shutDown = false ∧ s.available ∧ s.capacity ≤ s.queue.length := by
  unfold refusal?
  cases tune.isComplete <;> cases s.shutDown <;> cases s.available <;> simp

theorem problemOf_remove (s : Scheduler β) (id : Nat) :
    problemOf (s.remove id).2 =
      if ∃ slot ∈ s.slots, slot.id = id then none else some (.unknownSlot id) := by
  have hslots : (∃ slot ∈ s.slots, slot.id = id) ↔
      s.isCurrent id ∨ s.queue.any (·.id = id) := by
    simp only [slots, List.mem_append, Option.mem_toList, or_and_right, exists_or,
      Station.isCurrent_iff, List.any_eq_true, decide_eq_true_eq]
  rw [if_congr hslots rfl rfl, remove]
  by_cases hcurrent : s.isCurrent id
  · rw [if_pos hcurrent, if_pos (.inl hcurrent)]
    rfl
  · by_cases hqueue : s.queue.any (·.id = id)
    · rw [if_neg hcurrent, if_pos hqueue, if_pos (.inr hqueue)]
      rfl
    · rw [if_neg hcurrent, if_neg hqueue, if_neg (not_or.mpr ⟨hcurrent,hqueue⟩)]
      rfl

omit [Beats β] in
theorem problemOf_setVolume (s : Scheduler β) (volume : Float32) :
    problemOf (s.setVolume volume).2 =
      if isVolume volume then none else some (.badVolume volume) := by
  unfold setVolume
  split <;> rfl

theorem problemOf_setTempo (s : Scheduler β) (tempo : β) :
    problemOf (s.setTempo tempo).2 =
      if isTempo tempo then none else some (.badTempo tempo) := by
  unfold setTempo
  split <;> rfl

theorem problem?_eq_none_iff (s : Scheduler β) (r : Request β) :
    s.problem? r = none ↔ s.Admits r := by
  cases r with
  | enqueue tune options =>
    rw [problem?, problemOf_enqueue]
    exact s.refusal?_eq_none_iff tune
  | remove id =>
    rw [problem?, problemOf_remove, Admits]
    simp
  | setVolume volume =>
    rw [problem?, problemOf_setVolume, Admits]
    simp
  | setTempo tempo =>
    rw [problem?, problemOf_setTempo, Admits]
    simp
  | _ => exact iff_of_true rfl trivial

/-! ## The length of the queue -/

/-- The queue is no longer than it may be. -/
structure Fits (most : Nat) (s : Scheduler β) : Prop where
  capacity : s.capacity = most
  length : s.queue.length ≤ most

omit [Beats β] in
theorem Fits.shrink (h : s.Fits most) (hcapacity : next.capacity = s.capacity)
    (hlength : next.queue.length ≤ s.queue.length) : next.Fits most :=
  ⟨hcapacity.trans h.capacity,hlength.trans h.length⟩

omit [Beats β] in
theorem Onward.length_queue_le (h : s.Onward next) : next.queue.length ≤ s.queue.length := by
  rcases h.order with ⟨-,hqueue⟩ | hslots
  · exact hqueue.length_le
  · exact ((List.sublist_append_right _ _).trans hslots).length_le

theorem Fits.snapshot (h : s.Fits most) (t : Ticker β) (now : Nat) (available : Bool) :
    (t.snapshot s now available).2.1.Fits most := by
  refine h.shrink ?_ (onward_snapshot t s now available).length_queue_le
  obtain ⟨gap,next,hcopy,rfl | ⟨-,rfl⟩⟩ := Station.snapshot_cases t s now available
  · rw [hcopy]
  · rw [hcopy]
    rfl

theorem Fits.report (h : s.Fits most) (t : Ticker β) (now : Nat) (report : Report β) :
    (t.report s now report).2.Fits most := by
  cases report with
  | nothing => exact h
  | position beats => exact ⟨h.capacity,h.length⟩
  | finished slot =>
    rw [Ticker.report, Ticker.finish]
    split
    · dsimp only
      split
      · exact h.shrink rfl (List.length_tail.trans_le (Nat.sub_le _ _))
      · exact ⟨h.capacity,h.length⟩
    · exact h

end Scheduler

namespace Station

variable {β : Type} [Beats β] {st next : Station β} {most : Nat}

/-- A request that is refused leaves the whole station as it is. -/
theorem request_of_problem? {r : Request β} {p : SchedulerProblem β}
    (h : st.scheduler.problem? r = some p) : st.request r = st := by
  cases r with
  | enqueue tune options =>
    rw [Scheduler.problem?, Scheduler.problemOf_enqueue] at h
    rw [request, enqueue, Scheduler.enqueue, h]
  | remove id =>
    rw [Scheduler.problem?, Scheduler.remove] at h
    rw [request, Scheduler.remove]
    split at h
    · cases h
    · next hcurrent =>
      split at h
      · cases h
      · next hqueue => rw [if_neg hcurrent, if_neg hqueue]
  | setVolume volume =>
    rw [Scheduler.problem?, Scheduler.setVolume] at h
    rw [request, Scheduler.setVolume]
    split at h
    · cases h
    · next hvolume => rw [if_neg hvolume]
  | setTempo tempo =>
    rw [Scheduler.problem?, Scheduler.setTempo] at h
    rw [request, Scheduler.setTempo]
    split at h
    · cases h
    · next htempo => rw [if_neg htempo]
  | _ => cases h

omit [Beats β] in
theorem fits_enqueue (h : st.scheduler.Fits most) (tune : Tune β) (options : SlotOptions) :
    (st.enqueue tune options).scheduler.Fits most := by
  cases hrefusal : st.scheduler.refusal? tune with
  | some p =>
    rw [enqueue, Scheduler.enqueue, hrefusal]
    exact h
  | none =>
    obtain ⟨-,-,-,hroom⟩ := (st.scheduler.refusal?_eq_none_iff tune).mp hrefusal
    rw [h.capacity] at hroom
    rw [enqueue, Scheduler.enqueue, hrefusal]
    exact ⟨h.capacity,by simpa using Nat.succ_le_of_lt hroom⟩

theorem capacity_request (st : Station β) (r : Request β) :
    (st.request r).scheduler.capacity = st.scheduler.capacity := by
  cases r with
  | enqueue tune options =>
    rcases enqueue_cases st tune options with heq | heq <;> rw [request, heq]
  | remove id =>
    simp only [request, Scheduler.remove]
    split
    · rfl
    · split <;> rfl
  | setVolume volume =>
    simp only [request, Scheduler.setVolume]
    split <;> rfl
  | setTempo tempo =>
    simp only [request, Scheduler.setTempo]
    split <;> rfl
  | _ => rfl

theorem fits_step (h : st.scheduler.Fits most) {a : Step β} (hnext : st.step a = some next) :
    next.scheduler.Fits most := by
  cases a with
  | request r =>
    cases Option.some.inj hnext
    -- of all requests only one for a tune makes the queue longer
    rcases request_cases st r with ⟨tune,options,rfl⟩ | ⟨-,honward⟩
    · exact fits_enqueue h tune options
    · exact h.shrink (capacity_request st r) honward.length_queue_le
  | proceed b clock =>
    simp only [step, proceed] at hnext
    split at hnext
    · cases Option.some.inj hnext
      exact h.snapshot _ _ _
    · obtain ⟨played,-,rfl⟩ := Option.map_eq_some_iff.mp hnext
      exact h
    · cases Option.some.inj hnext
      exact h.report _ _ _

theorem fits_follow (h : st.scheduler.Fits most) {steps : List (Step β)} {last : Station β}
    (hrun : follow steps st = some last) : last.scheduler.Fits most :=
  follow_keeps (P := fun mid => mid.scheduler.Fits most) (fun h hnext => fits_step h hnext) h hrun

/-- From an empty queue, whatever the order of requests and phases, the queue is never longer than
it may be. Requests are refused just if they do not meet what is asked of them, a tune with a full
queue as the reason just if that alone is in the way, and a refused request changes nothing at
all. -/
theorem follow_refused (slots notes usualGap start : Nat) (volume : Float32) (tempo : β)
    (available : Bool) (steps : List (Step β)) {last : Station β}
    (hrun : follow steps (new (.new slots volume tempo available) (.new usualGap notes start)) =
      some last) :
    (last.scheduler.capacity = slots ∧ last.scheduler.queue.length ≤ slots) ∧
      (∀ r, last.scheduler.problem? r = none ↔ last.scheduler.Admits r) ∧
      (∀ r p, last.scheduler.problem? r = some p → last.request r = last) ∧
      ∀ tune options, last.scheduler.problem? (.enqueue tune options) = some (.queueFull slots) ↔
        tune.isComplete ∧ last.scheduler.shutDown = false ∧ last.scheduler.available ∧
          last.scheduler.queue.length = slots := by
  have hfits : last.scheduler.Fits slots := fits_follow ⟨rfl,Nat.zero_le _⟩ hrun
  refine ⟨⟨hfits.capacity,hfits.length⟩,last.scheduler.problem?_eq_none_iff,
    fun _ _ => request_of_problem?,fun tune options => ?_⟩
  have hfull := last.scheduler.refusal?_eq_queueFull_iff tune
  -- the queue is never longer than it may be, so full means just as long
  rw [hfits.capacity, hfits.length.ge_iff_eq] at hfull
  rw [Scheduler.problem?, Scheduler.problemOf_enqueue]
  exact hfull

/-- One slot plays on pause and one waits, and no third one is taken. -/
theorem follow_refused_full :
    ∃ (steps : List (Step Rat)) (last : Station Rat) (tune : Tune Rat),
      follow steps (new (.new 1 1.0 1 true) (.new 0 4 0)) = some last ∧
        last.scheduler.slots.map Slot.id = [1, 2] ∧ last.scheduler.paused = true ∧
        last.scheduler.problem? (.enqueue tune .once) = some (.queueFull 1) ∧
        last.request (.enqueue tune .once) = last ∧
        ¬last.scheduler.Admits (.remove 3) ∧ last.request (.remove 3) = last ∧
        last.scheduler.queue.length ≤ 1 := by
  let tune : Tune Rat := Tune.empty (.initial 1)
  let steps : List (Step Rat) :=
    .request (.enqueue tune .once) :: List.replicate 3 (.proceed .accepting 0) ++
      [.request (.enqueue tune .once),.request .pause]
  let start : Station Rat := new (.new 1 1.0 1 true) (.new 0 4 0)
  have hevaluated : (follow steps start).map (fun last =>
      (last.scheduler.slots.map Slot.id,last.scheduler.queue.length,last.scheduler.paused,
        last.scheduler.shutDown,last.scheduler.available)) =
      some ([1, 2],1,true,false,true) := by
    decide +kernel
  obtain ⟨last,hrun,hlast⟩ := Option.map_eq_some_iff.mp hevaluated
  simp only [Prod.mk.injEq] at hlast
  obtain ⟨hslots,hlength,hpaused,hopen,hready⟩ := hlast
  obtain ⟨⟨-,hbound⟩,hadmits,hsame,hfull⟩ := follow_refused 1 4 0 0 1.0 1 true steps hrun
  have henqueue := (hfull tune .once).mpr ⟨rfl,hopen,hready,hlength⟩
  have hid : ∀ slot ∈ last.scheduler.slots, slot.id = 1 ∨ slot.id = 2 := by
    intro slot hslot
    simpa [hslots] using List.mem_map_of_mem (f := Slot.id) hslot
  have hremove : ¬last.scheduler.Admits (.remove 3) := by
    rintro ⟨slot,hslot,hthird⟩
    have := hid slot hslot
    omega
  obtain ⟨p,hp⟩ := Option.ne_none_iff_exists'.mp fun hnone => hremove ((hadmits _).mp hnone)
  exact ⟨steps,last,tune,hrun,hslots,hpaused,henqueue,hsame _ _ henqueue,hremove,hsame _ p hp,
    hbound⟩

end Station
end AbcTune
