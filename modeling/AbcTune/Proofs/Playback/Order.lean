import AbcTune.Proofs.Playback.Course
import AbcTune.Proofs.Playback.Position

/-! # The order of playing

Ids grow from one queued slot to the next, and slots leave the queue from its front or are dropped
from it. So the slots that the ticker has begun to play, those that it may begin next and those that
wait always come in the order in which they were queued, and none of them comes twice.
-/
namespace AbcTune

variable {β : Type} [Beats β]

namespace Scheduler

/-- No slot comes in. The current slot is kept, or gives way to what is left of the queue. -/
structure Onward (s next : Scheduler β) : Prop where
  nextId : next.nextId = s.nextId
  order : (next.current = s.current ∧ next.queue.Sublist s.queue) ∨ next.slots.Sublist s.queue

variable {s next : Scheduler β}

omit [Beats β] in
theorem onward_of_queue (hid : next.nextId = s.nextId) (hqueue : next.queue.Sublist s.queue)
    (hcurrent : next.current = s.current) : s.Onward next :=
  ⟨hid,.inl ⟨hcurrent,hqueue⟩⟩

omit [Beats β] in
theorem Onward.slots_sublist (h : s.Onward next) : next.slots.Sublist s.slots := by
  rcases h.order with ⟨hcurrent,hqueue⟩ | hslots
  · rw [slots, slots, hcurrent]
    exact hqueue.append_left _
  · exact hslots.trans (List.sublist_append_right _ _)

theorem onward_advanceQueue (s : Scheduler β) : s.Onward s.advanceQueue := by
  refine ⟨rfl,.inr ?_⟩
  rw [slots_advanceQueue]

theorem onward_remove (s : Scheduler β) (id : Nat) : s.Onward (s.remove id).1 := by
  unfold remove
  split
  · exact s.onward_advanceQueue
  · split
    · exact onward_of_queue rfl List.eraseP_sublist rfl
    · exact onward_of_queue rfl (.refl _) rfl

omit [Beats β] in
theorem onward_setVolume (s : Scheduler β) (volume : Float32) :
    s.Onward (s.setVolume volume).1 := by
  unfold setVolume
  split <;> exact onward_of_queue rfl (.refl _) rfl

theorem onward_setTempo (s : Scheduler β) (tempo : β) : s.Onward (s.setTempo tempo).1 := by
  unfold setTempo
  split <;> exact onward_of_queue rfl (.refl _) rfl

theorem onward_snapshot (t : Ticker β) (s : Scheduler β) (now : Nat) (available : Bool) :
    s.Onward (t.snapshot s now available).2.1 := by
  obtain ⟨gap,next,hcopy,rfl | ⟨-,rfl⟩⟩ := Station.snapshot_cases t s now available
  · rw [hcopy]
    exact onward_of_queue rfl (.refl _) rfl
  · rw [hcopy]
    obtain ⟨hid,horder⟩ := onward_advanceQueue { s with available, stopped := false }
    exact ⟨hid,horder⟩

/-- Retiring a slot leaves those that wait, and the current one if it is another slot. -/
theorem finish_sublist (t : Ticker β) (s : Scheduler β) (slot : Slot β) (now : Nat) :
    (t.finish s slot now).1.player = t.player ∧
      (t.finish s slot now).2.slots.Sublist
        (s.current.toList.filter (·.id ≠ slot.id) ++ s.queue) := by
  by_cases h : s.isCurrent slot.id
  · rw [Ticker.finish, if_pos h]
    dsimp only
    split
    · rw [slots_advanceQueue]
      exact ⟨rfl,List.sublist_append_right _ _⟩
    · exact ⟨rfl,List.sublist_append_right _ _⟩
  · rw [Station.finish_of_not_current t h]
    have hother : s.current.toList.filter (·.id ≠ slot.id) = s.current.toList := by
      refine List.filter_eq_self.mpr fun current hcurrent => decide_eq_true fun hid => h ?_
      exact Station.isCurrent_iff.mpr ⟨current,Option.mem_toList.mp hcurrent,hid⟩
    rw [hother]
    exact ⟨rfl,.refl _⟩

end Scheduler

namespace Station

variable {st next : Station β} {seen : List Nat}

/-! ## Which slots were begun -/

/-- The slot that the ticker has a player for after a step, if that is another one than before. -/
def begun (st next : Station β) : List Nat :=
  if next.ticker.playing = st.ticker.playing then [] else next.ticker.playing.toList

/-- The slots that the ticker has begun to play, in the order of beginning. -/
def started : List (Step β) → Station β → List Nat
  | [], _ => []
  | a :: rest, st => (st.step a).elim [] fun next => st.begun next ++ started rest next

/-- The slot that the phase under way is to begin. -/
def beginning (st : Station β) : List Nat :=
  match st.phase with
  | .copied snap _ _ =>
    if st.ticker.playing = snap.slot.map (·.id) then [] else (snap.slot.map (·.id)).toList
  | _ => []

/-- The current slot, where the ticker does not attend to it, and the slots that wait. -/
def waiting (st : Station β) : List Nat :=
  (st.scheduler.current.toList.map Slot.id).filter (st.attended ≠ some ·) ++
    st.scheduler.queue.map Slot.id

/-- The slots that were begun and those that may still be come in the order of queueing. -/
structure Ordered (st : Station β) (seen : List Nat) : Prop where
  ids : (st.accepted.map Slot.id).Pairwise (· < ·)
  issued : ∀ slot ∈ st.accepted, slot.id < st.scheduler.nextId
  kept : st.scheduler.slots.Sublist st.accepted
  line : (seen ++ (st.beginning ++ st.waiting)).Sublist (st.accepted.map Slot.id)

omit [Beats β] in
theorem begun_of_playing (h : next.ticker.playing = st.ticker.playing) : st.begun next = [] :=
  if_pos h

omit [Beats β] in
theorem waiting_sublist (st : Station β) :
    st.waiting.Sublist (st.scheduler.slots.map Slot.id) := by
  rw [waiting, Scheduler.slots, List.map_append]
  exact List.filter_sublist.append_right _

omit [Beats β] in
theorem waiting_sublist_of_onward (hattended : next.attended = st.attended)
    (h : st.scheduler.Onward next.scheduler) : next.waiting.Sublist st.waiting := by
  rcases h.order with ⟨hcurrent,hqueue⟩ | hslots
  · rw [waiting, waiting, hcurrent, hattended]
    exact (hqueue.map _).append_left _
  · have hall : next.waiting.Sublist (st.scheduler.queue.map Slot.id) :=
      next.waiting_sublist.trans (hslots.map _)
    exact hall.trans (List.sublist_append_right _ _)

/-! ## Requests -/

omit [Beats β] in
theorem Ordered.onward (h : Ordered st seen) (haccepted : next.accepted = st.accepted)
    (hplaying : next.ticker.playing = st.ticker.playing) (hphase : next.phase = st.phase)
    (honward : st.scheduler.Onward next.scheduler) : Ordered next seen := by
  have hbeginning : next.beginning = st.beginning := by
    unfold beginning
    rw [hphase, hplaying]
  have hattended : next.attended = st.attended := by
    unfold attended
    rw [hphase, hplaying]
  refine ⟨?_,?_,?_,?_⟩
  · rw [haccepted]
    exact h.ids
  · rw [haccepted, honward.nextId]
    exact h.issued
  · rw [haccepted]
    exact honward.slots_sublist.trans h.kept
  · rw [haccepted, hbeginning]
    have hwaiting := waiting_sublist_of_onward hattended honward
    exact ((hwaiting.append_left _).append_left _).trans h.line

omit [Beats β] in
theorem Ordered.enqueue (h : Ordered st seen) (tune : Tune β) (options : SlotOptions) :
    Ordered (st.enqueue tune options) seen := by
  rcases enqueue_cases st tune options with heq | heq
  · rw [heq]
    exact h
  · rw [heq]
    refine ⟨?_,?_,?_,?_⟩
    · rw [List.map_append, List.pairwise_append]
      refine ⟨h.ids,by simp,?_⟩
      intro id hid other hother
      obtain ⟨slot,hslot,rfl⟩ := List.mem_map.mp hid
      cases List.mem_singleton.mp hother
      exact h.issued slot hslot
    · intro slot hslot
      rcases List.mem_append.mp hslot with hslot | hslot
      · exact Nat.lt_succ_of_lt (h.issued slot hslot)
      · cases List.mem_singleton.mp hslot
        exact Nat.lt_succ_self _
    · rw [Scheduler.slots, ← List.append_assoc]
      exact h.kept.append (.refl _)
    · have hline := h.line.append (.refl [st.scheduler.nextId])
      rw [waiting] at hline ⊢
      simp only [List.map_append, List.append_assoc] at hline ⊢
      exact hline

theorem request_cases (st : Station β) (r : Request β) :
    (∃ tune options, r = .enqueue tune options) ∨
      (st.request r).accepted = st.accepted ∧ st.scheduler.Onward (st.request r).scheduler := by
  cases r with
  | enqueue tune options => exact .inl ⟨tune,options,rfl⟩
  | stop => exact .inr ⟨rfl,rfl,.inr (List.nil_sublist _)⟩
  | skip => exact .inr ⟨rfl,st.scheduler.onward_advanceQueue⟩
  | remove id => exact .inr ⟨rfl,st.scheduler.onward_remove id⟩
  | clear => exact .inr ⟨rfl,Scheduler.onward_of_queue rfl (List.nil_sublist _) rfl⟩
  | setVolume volume => exact .inr ⟨rfl,st.scheduler.onward_setVolume volume⟩
  | setTempo tempo => exact .inr ⟨rfl,st.scheduler.onward_setTempo tempo⟩
  | _ => exact .inr ⟨rfl,Scheduler.onward_of_queue rfl (.refl _) rfl⟩

theorem Ordered.request (h : Ordered st seen) (r : Request β) : Ordered (st.request r) seen := by
  rcases request_cases st r with ⟨tune,options,rfl⟩ | ⟨haccepted,honward⟩
  · exact h.enqueue tune options
  · obtain ⟨hticker,hphase,-⟩ := st.turn_request r
    exact h.onward haccepted (congrArg Ticker.playing hticker) hphase honward

/-! ## The phases of a tick -/

omit [Beats β] in
/-- What a tick has just copied is the current slot, and it is to be begun where the ticker does not
play it yet. -/
theorem Ordered.copy (h : Ordered st seen) (hphase : st.phase = .idle) {snap : Snapshot β}
    (hslot : snap.slot = st.scheduler.current) (elapsed now : Nat) :
    Ordered { st with phase := .copied snap elapsed now } seen := by
  refine ⟨h.ids,h.issued,h.kept,?_⟩
  have hline := h.line
  simp only [beginning, waiting, attended, hphase, hslot] at hline ⊢
  cases hcurrent : st.scheduler.current with
  | none => simpa [hcurrent] using hline
  | some slot =>
    rw [hcurrent] at hline
    by_cases hplaying : st.ticker.playing = some slot.id
    · simpa [hplaying] using hline
    · simpa [hplaying] using hline

/-- A tick gets a new player for the slot that it was to begin, and attends to the slot that it has
copied. -/
theorem begun_of_play {b : Backend} {snap : Snapshot β} {elapsed now : Nat} {t : Ticker β}
    {sent : List Emission} {report : Report β} (hphase : st.phase = .copied snap elapsed now)
    (hplay : st.ticker.play b snap elapsed = some (t,sent,report)) (taken : List Message) :
    st.begun { st with ticker := t, phase := .played report now, taken } = st.beginning ∧
      attended { st with ticker := t, phase := .played report now, taken } =
        snap.slot.map (·.id) := by
  simp only [begun, beginning, attended, hphase]
  cases Ticker.course_of_play hplay with
  | still hsame _ => simp [hsame]
  | move h _ => simp [Ticker.playing, h.player, h.copied, h.same, h.slotId]
  | loop h _ _ =>
    simp [Ticker.playing, h.player, h.copied, h.same, h.slotId, Player.rewind, Player.releaseAll]
  | finish h _ _ => simp [Ticker.playing, h.player, h.copied, h.same]
  | leave hother hslot => simp [hslot, hother, st.ticker.leave_playing b]
  | enter hother hslot henter =>
    have hentered := Ticker.enter_playing henter
    simp [hslot, hentered, hother, Ne.symm hother]

theorem Ordered.play (h : Ordered st seen) {b : Backend} {snap : Snapshot β} {elapsed now : Nat}
    (hphase : st.phase = .copied snap elapsed now) {t : Ticker β} {sent : List Emission}
    {report : Report β} (hplay : st.ticker.play b snap elapsed = some (t,sent,report))
    (taken : List Message) :
    Ordered { st with ticker := t, phase := .played report now, taken }
      (seen ++ st.begun { st with ticker := t, phase := .played report now, taken }) := by
  obtain ⟨hbegun,hattended⟩ := begun_of_play hphase hplay taken
  refine ⟨h.ids,h.issued,h.kept,?_⟩
  have hline := h.line
  have hbefore : st.attended = snap.slot.map (·.id) := by
    unfold attended
    rw [hphase]
  rw [waiting, hbefore, ← hattended] at hline
  rw [hbegun, List.append_assoc]
  exact hline

/-- A slot that is reported as finished is retired while it is the current one; the ticker attends
to none then. -/
theorem Ordered.report (h : Ordered st seen) {report : Report β} {now : Nat}
    (hphase : st.phase = .played report now) :
    let next := { st with
      scheduler := (st.ticker.report st.scheduler now report).2
      ticker := (st.ticker.report st.scheduler now report).1
      phase := .idle }
    Ordered next seen ∧ next.ticker.playing = st.ticker.playing := by
  have hline := h.line
  simp only [beginning, waiting, attended, hphase] at hline
  cases report with
  | nothing => exact ⟨⟨h.ids,h.issued,h.kept,hline⟩,rfl⟩
  | position x => exact ⟨⟨h.ids,h.issued,h.kept,hline⟩,rfl⟩
  | finished slot =>
    obtain ⟨hplayer,hslots⟩ := st.scheduler.finish_sublist st.ticker slot now
    have hid := (slots_finish st.ticker st.scheduler slot now).2
    refine ⟨⟨h.ids,?_,?_,?_⟩,congrArg (Option.map Player.slotId) hplayer⟩
    · dsimp only [Ticker.report]
      rw [hid]
      exact h.issued
    · exact (hslots.trans (List.filter_sublist.append_right _)).trans h.kept
    · refine List.Sublist.trans ((List.Sublist.append_left ?_ _).append_left _) hline
      refine (waiting_sublist _).trans ((hslots.map Slot.id).trans ?_)
      rw [List.map_append, List.filter_map]
      simp [Function.comp_def, eq_comm]

theorem Ordered.proceed (h : Ordered st seen) {b : Backend} {clock : Nat}
    (hnext : st.proceed b clock = some next) : Ordered next (seen ++ st.begun next) := by
  cases hphase : st.phase with
  | idle =>
    obtain ⟨hplayer,-,hslot⟩ := Scheduler.turn_snapshot
      { st.ticker with lastTick := clock } st.scheduler clock b.available
    have honward := Scheduler.onward_snapshot
      { st.ticker with lastTick := clock } st.scheduler clock b.available
    rcases hcopy : Ticker.snapshot { st.ticker with lastTick := clock } st.scheduler clock
      b.available with ⟨t,s,snap⟩
    rw [hcopy] at hplayer hslot honward
    simp only [Station.proceed, hphase, hcopy, Option.some.injEq] at hnext
    subst hnext
    have hplaying : t.playing = st.ticker.playing := congrArg (Option.map Player.slotId) hplayer
    have hbegun : Ordered { st with scheduler := s, ticker := t } seen :=
      h.onward rfl hplaying rfl honward
    rw [begun_of_playing hplaying, List.append_nil]
    exact hbegun.copy hphase hslot _ _
  | copied snap elapsed now =>
    simp only [Station.proceed, hphase] at hnext
    obtain ⟨⟨t,sent,report⟩,hplay,rfl⟩ := Option.map_eq_some_iff.mp hnext
    exact h.play hphase hplay _
  | played report now =>
    simp only [Station.proceed, hphase, Option.some.injEq] at hnext
    subst hnext
    obtain ⟨hreport,hplaying⟩ := h.report hphase
    rw [begun_of_playing hplaying, List.append_nil]
    exact hreport

theorem Ordered.step (h : Ordered st seen) {a : Step β} (hnext : st.step a = some next) :
    Ordered next (seen ++ st.begun next) := by
  cases a with
  | request r =>
    cases Option.some.inj hnext
    obtain ⟨hticker,-,-⟩ := st.turn_request r
    rw [begun_of_playing (congrArg Ticker.playing hticker), List.append_nil]
    exact h.request r
  | proceed b clock => exact h.proceed hnext

/-! ## Runs -/

theorem Ordered.follow (h : Ordered st seen) {steps : List (Step β)} {last : Station β}
    (hrun : follow steps st = some last) : Ordered last (seen ++ started steps st) := by
  induction steps generalizing st seen with
  | nil =>
    cases Option.some.inj hrun
    rw [started, List.append_nil]
    exact h
  | cons a rest ih =>
    obtain ⟨next,hnext,hrest⟩ := Option.bind_eq_some_iff.mp hrun
    have hlast := ih (h.step hnext) hrest
    rw [started, hnext]
    rwa [List.append_assoc] at hlast

theorem ordered_new (slots notes usualGap now : Nat) (volume : Float32) (tempo : β)
    (available : Bool) :
    Ordered (new (.new slots volume tempo available) (.new usualGap notes now)) [] where
  ids := .nil
  issued := by simp [new]
  kept := .slnil
  line := .slnil

/-- From an empty queue, whatever the order of requests and phases: ids are given in growing order,
so that none is given twice; the slots in the queue stand in that order, behind the current one, and
their ids were given already; and the slots that the ticker has begun are some of those that were
queued, in the order of queueing, each of them begun once. -/
theorem follow_started (slots notes usualGap start : Nat) (volume : Float32) (tempo : β)
    (available : Bool) (steps : List (Step β)) {last : Station β}
    (hrun : follow steps (new (.new slots volume tempo available) (.new usualGap notes start)) =
      some last) :
    (last.scheduler.queue.map Slot.id).Pairwise (· < ·) ∧
      (∀ slot ∈ last.scheduler.queue, slot.id < last.scheduler.nextId) ∧
      (∀ current ∈ last.scheduler.current, ∀ slot ∈ last.scheduler.queue, current.id < slot.id) ∧
      (last.accepted.map Slot.id).Pairwise (· < ·) ∧
      (started steps (new (.new slots volume tempo available) (.new usualGap notes start))).Sublist
        (last.accepted.map Slot.id) ∧
      (started steps
        (new (.new slots volume tempo available) (.new usualGap notes start))).Pairwise (· < ·) := by
  have hlast := (ordered_new slots notes usualGap start volume tempo available).follow hrun
  have hslots := hlast.ids.sublist (hlast.kept.map Slot.id)
  rw [Scheduler.slots, List.map_append, List.pairwise_append] at hslots
  obtain ⟨-,hqueue,hcurrent⟩ := hslots
  have hstarted := (List.sublist_append_left _ _).trans hlast.line
  refine ⟨hqueue,?_,?_,hlast.ids,hstarted,hlast.ids.sublist hstarted⟩
  · intro slot hslot
    exact hlast.issued slot (hlast.kept.subset (List.mem_append_right _ hslot))
  · intro current hmem slot hslot
    exact hcurrent current.id (List.mem_map_of_mem (Option.mem_toList.mpr hmem)) slot.id
      (List.mem_map_of_mem hslot)

/-- The first slot is skipped when the tick that begins it has copied it already, the third one is
removed while it waits, and the second one is skipped for the fourth. -/
theorem follow_started_skipped :
    ∃ (steps : List (Step Rat)) (last : Station Rat),
      follow steps (new (.new 8 1.0 1 true) (.new 0 4 0)) = some last ∧
        started steps (new (.new 8 1.0 1 true) (.new 0 4 0)) = [1, 2, 4] ∧
        last.accepted.map Slot.id = [1, 2, 3, 4, 5] ∧
        last.scheduler.current.map Slot.id = some 4 ∧ last.scheduler.queue.map Slot.id = [5] ∧
        (∀ current ∈ last.scheduler.current, ∀ slot ∈ last.scheduler.queue, current.id < slot.id) ∧
        (started steps (new (.new 8 1.0 1 true) (.new 0 4 0))).Sublist
          (last.accepted.map Slot.id) := by
  let enqueue : Step Rat := .request (.enqueue (Tune.empty (.initial 1)) .once)
  let phases (count : Nat) : List (Step Rat) := List.replicate count (.proceed .accepting 0)
  let steps : List (Step Rat) :=
    List.replicate 3 enqueue ++ phases 1 ++ [.request .skip] ++ phases 4 ++
      [.request (.remove 3)] ++ List.replicate 2 enqueue ++ phases 1 ++ [.request .skip] ++ phases 3
  let start : Station Rat := new (.new 8 1.0 1 true) (.new 0 4 0)
  have hevaluated : (follow steps start).map (fun last =>
      (last.accepted.map Slot.id,last.scheduler.current.map Slot.id,
        last.scheduler.queue.map Slot.id)) = some ([1, 2, 3, 4, 5],some 4,[5]) := by
    decide +kernel
  have hstarted : started steps start = [1, 2, 4] := by decide +kernel
  obtain ⟨last,hrun,hlast⟩ := Option.map_eq_some_iff.mp hevaluated
  obtain ⟨-,-,hcurrent,-,hsublist,-⟩ := follow_started 8 4 0 0 1.0 1 true steps hrun
  simp only [Prod.mk.injEq] at hlast
  exact ⟨steps,last,hrun,hstarted,hlast.1,hlast.2.1,hlast.2.2,hcurrent,hsublist⟩

end Station
end AbcTune
