import AbcTune.Proofs.Playback.Position

/-! # Gaps that a stop ends

The gap after a slot is kept by the ticker, out of reach of those who ask for a stop: they can only
leave word, and the next tick to begin reads it. Nothing in between takes that word away. A tick that
was under way may still report a slot as finished, but a stop has dropped all slots, and the report
of a slot that is gone starts no gap.
-/
namespace AbcTune

variable {β : Type} [Beats β]

/-! ## Word of a stop -/

/-- Word of a stop is kept, and the tempo is kept or is one that may be asked for. -/
structure Scheduler.Settled (s next : Scheduler β) : Prop where
  stopped : s.stopped = true → next.stopped = true
  tempo : next.tempo = s.tempo ∨ isTempo next.tempo = true

namespace Scheduler

theorem settled_of_eq {s next : Scheduler β} (hstopped : next.stopped = s.stopped)
    (htempo : next.tempo = s.tempo) : s.Settled next :=
  ⟨hstopped.trans,.inl htempo⟩

theorem settled_remove (s : Scheduler β) (id : Nat) : s.Settled (s.remove id).1 := by
  unfold remove
  split
  · exact settled_of_eq rfl rfl
  · split <;> exact settled_of_eq rfl rfl

theorem settled_setVolume (s : Scheduler β) (volume : Float32) :
    s.Settled (s.setVolume volume).1 := by
  unfold setVolume
  split <;> exact settled_of_eq rfl rfl

theorem settled_setTempo (s : Scheduler β) (tempo : β) : s.Settled (s.setTempo tempo).1 := by
  unfold setTempo
  split
  · next htempo => exact ⟨id,.inr htempo⟩
  · exact settled_of_eq rfl rfl

theorem settled_report (t : Ticker β) (s : Scheduler β) (now : Nat) (report : Report β) :
    s.Settled (t.report s now report).2 := by
  cases report with
  | nothing => exact settled_of_eq rfl rfl
  | position beats => exact settled_of_eq rfl rfl
  | finished slot =>
    rw [Ticker.report, Ticker.finish]
    split
    · dsimp only
      split <;> exact settled_of_eq rfl rfl
    · exact settled_of_eq rfl rfl

end Scheduler

namespace Ticker

/-- With word of a stop, the first phase of a tick ends any gap, and takes the next slot up if none
is current. -/
theorem snapshot_of_stopped (t : Ticker β) {s : Scheduler β} (h : s.stopped = true) (now : Nat)
    (available : Bool) :
    (t.snapshot s now available).1.gapUntil = none ∧
      ∀ head rest, s.current = none → s.queue = head :: rest →
        (t.snapshot s now available).2.1.current = some head ∧
          (t.snapshot s now available).2.1.queue = rest ∧
          (t.snapshot s now available).2.2.slot = some head := by
  have hnotice : t.noticeStop { s with available } =
      ({ t with gapUntil := none },{ s with available, stopped := false }) := if_pos h
  unfold snapshot
  rw [hnotice]
  constructor
  · dsimp only [takeUp]
    split
    · rfl
    · split <;> rfl
  · intro head rest hcurrent hqueue
    simp [takeUp, isGapOver, Scheduler.advanceQueue, hcurrent, hqueue]

end Ticker

namespace Station

variable {st next last : Station β} {gone : List (Slot β)}

/-- Whether a step begins a tick. -/
def begins (st : Station β) : Step β → Bool
  | .request _ => false
  | .proceed _ _ =>
    match st.phase with
    | .idle => true
    | _ => false

omit [Beats β] in
theorem begins_proceed_iff {b : Backend} {clock : Nat} :
    st.begins (.proceed b clock) ↔ st.phase = .idle := by
  cases hphase : st.phase <;> simp [begins, hphase]

/-- How many ticks begin in a run. -/
def beginnings : List (Step β) → Station β → Nat
  | [], _ => 0
  | a :: rest, st => (if st.begins a then 1 else 0) + (st.step a).elim 0 (beginnings rest)

theorem settled_request (st : Station β) (r : Request β) :
    st.scheduler.Settled (st.request r).scheduler := by
  cases r with
  | enqueue tune options =>
    rcases enqueue_cases st tune options with heq | heq
    · rw [request, heq]
      exact Scheduler.settled_of_eq rfl rfl
    · rw [request, heq]
      exact Scheduler.settled_of_eq rfl rfl
  | stop => exact ⟨fun _ => rfl,.inl rfl⟩
  | remove id => exact st.scheduler.settled_remove id
  | setVolume volume => exact st.scheduler.settled_setVolume volume
  | setTempo tempo => exact st.scheduler.settled_setTempo tempo
  | _ => exact Scheduler.settled_of_eq rfl rfl

/-- Only a tick that begins takes the word of a stop away. -/
theorem stopped_step (h : st.scheduler.stopped = true) {a : Step β} (hbegins : st.begins a = false)
    (hnext : st.step a = some next) : next.scheduler.stopped = true := by
  cases a with
  | request r =>
    cases Option.some.inj hnext
    exact (st.settled_request r).stopped h
  | proceed b clock =>
    simp only [step, proceed] at hnext
    cases hphase : st.phase with
    | idle =>
      rw [begins_proceed_iff.mpr hphase] at hbegins
      cases hbegins
    | copied snap elapsed now =>
      rw [hphase] at hnext
      obtain ⟨played,-,rfl⟩ := Option.map_eq_some_iff.mp hnext
      exact h
    | played report now =>
      rw [hphase] at hnext
      cases Option.some.inj hnext
      exact (Scheduler.settled_report st.ticker st.scheduler now report).stopped h

theorem stopped_follow (h : st.scheduler.stopped = true) {steps : List (Step β)}
    (hbeginnings : beginnings steps st = 0) (hrun : follow steps st = some last) :
    last.scheduler.stopped = true := by
  induction steps generalizing st with
  | nil =>
    cases Option.some.inj hrun
    exact h
  | cons a rest ih =>
    obtain ⟨next,hnext,hrest⟩ := Option.bind_eq_some_iff.mp hrun
    rw [beginnings, hnext] at hbeginnings
    obtain ⟨hfirst,hlater⟩ := Nat.add_eq_zero_iff.mp hbeginnings
    have hbegins : st.begins a = false := by simpa using hfirst
    exact ih (stopped_step h hbegins hnext) hlater hrest

/-! ## Slots that are gone -/

theorem accepted_subset_of_follow {steps : List (Step β)} (hrun : follow steps st = some last) :
    st.accepted ⊆ last.accepted :=
  follow_keeps (P := fun mid => st.accepted ⊆ mid.accepted)
    (fun h hnext => List.Subset.trans h (accepted_subset hnext)) (List.Subset.refl _) hrun

omit [Beats β] in
theorem Accounted.mem_accepted (h : Accounted st gone) {slot : Slot β}
    (hslot : st.scheduler.current = some slot) : slot ∈ st.accepted := by
  have hkept : slot ∈ st.scheduler.slots :=
    List.mem_append_left _ (Option.mem_toList.mpr hslot)
  exact h.kept.mem_iff.mpr (List.mem_append_left gone hkept)

omit [Beats β] in
theorem Accounted.not_isCurrent (h : Accounted st gone) {slot : Slot β} (hgone : slot ∈ gone) :
    ¬st.scheduler.isCurrent slot.id := by
  intro hcurrent
  obtain ⟨current,hslot,hid⟩ := isCurrent_iff.mp hcurrent
  have hkept : current ∈ st.scheduler.slots :=
    List.mem_append_left _ (Option.mem_toList.mpr hslot)
  have hnodup := h.nodup
  rw [List.map_append] at hnodup
  exact (List.nodup_append.mp hnodup).2.2 _ (List.mem_map_of_mem hkept) _
    (List.mem_map_of_mem hgone) hid

/-- Whatever was queued before a stop is gone with it, and never current again. -/
theorem Accounted.not_isCurrent_of_stop (h : Accounted st gone) {after : List (Step β)}
    (hrun : Station.follow (.request .stop :: after) st = some last) {slot : Slot β}
    (hslot : slot ∈ st.accepted) : ¬last.scheduler.isCurrent slot.id := by
  have hlast := h.follow hrun
  refine hlast.not_isCurrent ?_
  rcases List.mem_append.mp (h.kept.mem_iff.mp hslot) with hkept | hgone
  · exact List.mem_append_right _ (List.mem_append_left _ hkept)
  · exact List.mem_append_left _ hgone

/-- A slot that was current at some time before a stop does not become current again. -/
theorem not_isCurrent_of_stop {start : Station β} (h : Accounted start [])
    {before after : List (Step β)} (hbefore : follow before start = some st)
    (hafter : follow (.request .stop :: after) st = some last) {past : List (Step β)}
    (hpast : past <+: before) {mid : Station β} (hmid : follow past start = some mid) {id : Nat}
    (hcurrent : mid.scheduler.isCurrent id) : ¬last.scheduler.isCurrent id := by
  obtain ⟨slot,hslot,rfl⟩ := isCurrent_iff.mp hcurrent
  obtain ⟨between,rfl⟩ := hpast
  rw [follow_append, hmid] at hbefore
  have haccepted : slot ∈ mid.accepted := (h.follow hmid).mem_accepted hslot
  have hst : Accounted st (departed (past ++ between) start) := by
    refine h.follow ?_
    rw [follow_append, hmid]
    exact hbefore
  exact hst.not_isCurrent_of_stop hafter (accepted_subset_of_follow hbefore haccepted)

/-! ## Gaps -/

/-- From an empty queue, whatever the order of requests and phases and however long the gaps, no gap
outlives a stop. The first tick to begin after it finds no gap any more: if there is no current slot
then and the queue is not empty, the first one of the queue becomes current at once and is copied.
And a slot that was current at any time before the stop, and is reported as finished after it, leaves
no trace in the report: no gap starts then. -/
theorem follow_stopped (slots notes usualGap start : Nat) (volume : Float32) (tempo : β)
    (available : Bool) (before after : List (Step β))
    (hbefore : follow before (new (.new slots volume tempo available) (.new usualGap notes start)) =
      some st)
    (hafter : follow (.request .stop :: after) st = some last) :
    (beginnings after (st.request .stop) = 0 → last.phase = .idle → ∀ b clock,
      ∃ next snap elapsed, last.step (.proceed b clock) = some next ∧
        next.phase = .copied snap elapsed clock ∧ next.ticker.gapUntil = none ∧
        ∀ head rest, last.scheduler.current = none → last.scheduler.queue = head :: rest →
          next.scheduler.current = some head ∧ next.scheduler.queue = rest ∧
            snap.slot = some head) ∧
      ∀ slot, last.phase.finished? = some slot →
        ∀ past, past <+: before → ∀ mid,
          follow past (new (.new slots volume tempo available) (.new usualGap notes start)) =
            some mid → mid.scheduler.isCurrent slot.id →
          ∀ b clock, last.step (.proceed b clock) = some { last with phase := .idle } := by
  constructor
  · intro hbeginnings hidle b clock
    have hstopped : last.scheduler.stopped = true := stopped_follow rfl hbeginnings hafter
    obtain ⟨hgap,hhead⟩ := { last.ticker with lastTick := clock }.snapshot_of_stopped hstopped
      clock b.available
    rcases hcopy : Ticker.snapshot { last.ticker with lastTick := clock } last.scheduler clock
      b.available with ⟨t,s,snap⟩
    rw [hcopy] at hgap hhead
    have hnext : last.step (.proceed b clock) = some { last with
        scheduler := s
        ticker := t
        phase := .copied snap (clock - last.ticker.lastTick) clock } := by
      simp only [step, proceed, hidle, hcopy]
    exact ⟨_,snap,_,hnext,rfl,hgap,hhead⟩
  · intro slot hfinished past hpast mid hmid hcurrent b clock
    obtain ⟨now,hphase⟩ := phase_of_finished hfinished
    have hnot := not_isCurrent_of_stop
      (accounted_new slots notes usualGap start volume tempo available) hbefore hafter hpast hmid
      hcurrent
    simp only [step, proceed, hphase, Ticker.report, finish_of_not_current last.ticker hnot]

/-- A tune without a note, with five seconds of silence after it, is queued and played. -/
def gapped : List (Step Rat) :=
  .request (.enqueue (Tune.empty (.initial 1)) ⟨false,some 5000⟩) ::
    List.replicate 5 (.proceed .accepting 0)

/-- A stop, with another tune queued after it. -/
def requeued : List (Step Rat) :=
  [.request .stop, .request (.enqueue (Tune.empty (.initial 1)) .once)]

/-- A stop comes before the tune is reported as finished: no gap starts. Or it comes after that,
while the gap is kept, and another tune is queued: that becomes current in the next tick, ahead of
the time that the gap would have ended at. -/
theorem follow_stopped_gapped :
    (∃ (st last : Station Rat) (slot : Slot Rat),
      follow gapped (new (.new 8 1.0 1 true) (.new 0 4 0)) = some st ∧
        st.scheduler.isCurrent 1 = true ∧ st.phase.finished? = some slot ∧ slot.id = 1 ∧
        follow [.request .stop] st = some last ∧
        last.step (.proceed .accepting 0) = some { last with phase := .idle }) ∧
    ∃ st last next : Station Rat,
      follow (gapped ++ [.proceed .accepting 0]) (new (.new 8 1.0 1 true) (.new 0 4 0)) = some st ∧
        st.ticker.gapUntil = some 5000000000 ∧
        follow requeued st = some last ∧ last.ticker.gapUntil = some 5000000000 ∧
        last.step (.proceed .accepting 1) = some next ∧ next.ticker.gapUntil = none ∧
        next.scheduler.isCurrent 2 = true := by
  constructor
  · have hevaluated : (follow gapped (new (.new 8 1.0 1 true) (.new 0 4 0))).map (fun st =>
        (st.scheduler.isCurrent 1,st.phase.finished?.map Slot.id)) = some (true,some 1) := by
      decide +kernel
    obtain ⟨st,hrun,hst⟩ := Option.map_eq_some_iff.mp hevaluated
    obtain ⟨hcurrent,hfinished⟩ := Prod.mk.inj hst
    obtain ⟨slot,hslot,hid⟩ := Option.map_eq_some_iff.mp hfinished
    refine ⟨st,st.request .stop,slot,hrun,hcurrent,hslot,hid,rfl,?_⟩
    exact (follow_stopped 8 4 0 0 1.0 1 true gapped [] hrun rfl).2 slot hslot gapped
      (List.prefix_refl _) st hrun (hid ▸ hcurrent) .accepting 0
  · have hevaluated :
        ((follow (gapped ++ [.proceed .accepting 0]) (new (.new 8 1.0 1 true) (.new 0 4 0))).bind
          fun st => (follow requeued st).map fun last =>
            (st.ticker.gapUntil,last.ticker.gapUntil,last.begins (.proceed .accepting 1),
              last.scheduler.current.map Slot.id,last.scheduler.queue.map Slot.id)) =
        some (some 5000000000,some 5000000000,true,none,[2]) := by
      decide +kernel
    obtain ⟨st,hrun,hafter⟩ := Option.bind_eq_some_iff.mp hevaluated
    obtain ⟨last,hlast,hvalue⟩ := Option.map_eq_some_iff.mp hafter
    simp only [Prod.mk.injEq, Option.map_eq_none_iff] at hvalue
    obtain ⟨hkept,hpending,hbegins,hcurrent,hqueue⟩ := hvalue
    obtain ⟨head,rest,hwaits,hid,-⟩ := List.map_eq_cons_iff.mp hqueue
    obtain ⟨next,snap,elapsed,hnext,-,hgap,hhead⟩ :=
      (follow_stopped 8 4 0 0 1.0 1 true _ _ hrun hlast).1 rfl (begins_proceed_iff.mp hbegins)
        .accepting 1
    refine ⟨st,last,next,hrun,hkept,hlast,hpending,hnext,hgap,?_⟩
    exact isCurrent_iff.mpr ⟨head,(hhead head rest hcurrent hwaits).1,hid⟩

end Station
end AbcTune
