import Mathlib.Data.List.Induction
import AbcTune.Proofs.Playback.Course
import AbcTune.Proofs.Playback.Requests
import AbcTune.Proofs.Playback.Sounding

/-! # The published position

The position that is shown belongs to the current slot: it starts at zero, and only the ticker moves
it. But a tick reports in a phase of its own, and does not look again at what the current slot is:
a position that was reached in a slot is written even where a request has put another slot, or none,
in its place. Where that does not happen the position is always that of the current slot.
-/
namespace AbcTune

variable {β : Type} [Beats β]

/-! ## What becomes of the current slot -/

/-- Fresh slots may be queued. The current slot is kept with its position; or it gives way to one
that was waiting, or to none, and the position is where it starts. -/
structure Scheduler.Turn (s next : Scheduler β) : Prop where
  nextId : s.nextId ≤ next.nextId
  queue : ∀ slot ∈ next.queue, slot ∈ s.queue ∨ s.nextId ≤ slot.id
  current : (next.current = s.current ∧ next.position = s.position) ∨
    (∀ slot ∈ next.current, slot ∈ s.queue) ∧ next.position = 0.0

namespace Scheduler

variable {s next : Scheduler β}

theorem turn_of_queue (hid : next.nextId = s.nextId) (hqueue : next.queue ⊆ s.queue)
    (hcurrent : next.current = s.current) (hposition : next.position = s.position) :
    s.Turn next :=
  ⟨hid.ge,fun _ hslot => .inl (hqueue hslot),.inl ⟨hcurrent,hposition⟩⟩

theorem Turn.refl (s : Scheduler β) : s.Turn s := turn_of_queue rfl (List.Subset.refl _) rfl rfl

theorem turn_advanceQueue (s : Scheduler β) : s.Turn s.advanceQueue where
  nextId := le_rfl
  queue _ hslot := .inl (List.mem_of_mem_tail hslot)
  current := .inr ⟨fun _ => List.mem_of_mem_head?,rfl⟩

theorem turn_remove (s : Scheduler β) (id : Nat) : s.Turn (s.remove id).1 := by
  unfold remove
  split
  · exact s.turn_advanceQueue
  · split
    · exact turn_of_queue rfl (List.eraseP_subset) rfl rfl
    · exact .refl s

theorem turn_finish (t : Ticker β) (s : Scheduler β) (slot : Slot β) (now : Nat) :
    s.Turn (t.finish s slot now).2 ∧
      ∀ current ∈ (t.finish s slot now).2.current, current.id = slot.id → current ∈ s.queue := by
  by_cases h : s.isCurrent slot.id
  · rw [Ticker.finish, if_pos h]
    dsimp only
    split
    · exact ⟨s.turn_advanceQueue,fun _ hcurrent _ => List.mem_of_mem_head? hcurrent⟩
    · exact ⟨⟨le_rfl,fun _ => .inl,.inr ⟨by simp,rfl⟩⟩,by simp⟩
  · rw [Station.finish_of_not_current t h]
    exact ⟨.refl s,fun current hcurrent hid => absurd (Station.isCurrent_iff.mpr
      ⟨current,hcurrent,hid⟩) h⟩

/-- The first phase of a tick leaves the player alone, and copies what is then the current slot. -/
theorem turn_snapshot (t : Ticker β) (s : Scheduler β) (now : Nat) (available : Bool) :
    (t.snapshot s now available).1.player = t.player ∧
      s.Turn (t.snapshot s now available).2.1 ∧
      (t.snapshot s now available).2.2.slot = (t.snapshot s now available).2.1.current := by
  obtain ⟨gap,next,hcopy,rfl | ⟨-,rfl⟩⟩ := Station.snapshot_cases t s now available
  · rw [hcopy]
    exact ⟨rfl,turn_of_queue rfl (List.Subset.refl _) rfl rfl,rfl⟩
  · rw [hcopy]
    obtain ⟨hid,hqueue,hcurrent⟩ := turn_advanceQueue { s with available, stopped := false }
    exact ⟨rfl,⟨hid,hqueue,hcurrent⟩,rfl⟩

end Scheduler

namespace Ticker

variable {b : Backend} {t next : Ticker β} {snap : Snapshot β} {elapsed : Nat}
variable {sent : List Emission} {report : Report β}

/-- The slot that a tick moves a player in: the one it has copied, unless that plays already and
is paused. -/
def moves (t : Ticker β) (snap : Snapshot β) : List Nat :=
  if snap.paused ∧ t.playing = snap.slot.map (·.id) then [] else (snap.slot.map (·.id)).toList

theorem Moved.moves {slot : Slot β} {p q : Player β} (h : Moved b snap elapsed t slot p q sent) :
    t.moves snap = [slot.id] := by
  rw [Ticker.moves, if_neg fun hboth => Bool.false_ne_true (h.unpaused.symm.trans hboth.1), h.copied]
  rfl

theorem enter_playing {slot : Slot β} {volume : Float32}
    (h : t.enter b slot volume = some (next,sent)) : next.playing = some slot.id := by
  obtain ⟨⟨q,played⟩,hmove,heq⟩ := Option.map_eq_some_iff.mp h
  cases heq
  exact congrArg some (Player.advance_slotId b volume hmove)

omit [Beats β] in
theorem leave_playing (t : Ticker β) (b : Backend) : (t.leave b).1.playing = none := by
  rw [leave_eq]
  rfl

/-- A tick that moves no player has nothing to report, and any other plays the slot that it has
copied or has finished it. -/
theorem play_cases (h : t.play b snap elapsed = some (next,sent,report)) :
    (t.moves snap = [] ∧ report = .nothing ∧ next.playing = snap.slot.map (·.id)) ∨
    ∃ slot, snap.slot = some slot ∧ t.moves snap = [slot.id] ∧
      ((∃ x, report = .position x ∧ next.playing = some slot.id) ∨ report = .finished slot) := by
  cases course_of_play h with
  | still hsame hstill =>
    refine .inl ⟨?_,rfl,hsame⟩
    unfold moves
    rcases hstill with hpaused | hnone
    · exact if_pos ⟨hpaused,hsame⟩
    · simp [hnone]
  | move hmoved _ =>
    exact .inr ⟨_,hmoved.copied,hmoved.moves,.inl ⟨_,rfl,congrArg some hmoved.slotId⟩⟩
  | loop hmoved _ _ =>
    exact .inr ⟨_,hmoved.copied,hmoved.moves,.inl ⟨_,rfl,congrArg some hmoved.slotId⟩⟩
  | finish hmoved _ _ => exact .inr ⟨_,hmoved.copied,hmoved.moves,.inr rfl⟩
  | leave hother hslot =>
    rw [hslot]
    exact .inl ⟨by simp [moves, hslot],rfl,t.leave_playing b⟩
  | enter hother hslot henter =>
    have hmoves : t.moves snap = (snap.slot.map (·.id)).toList :=
      if_neg fun hboth => hother (hboth.2.trans (by rw [hslot]; rfl))
    rw [hmoves, hslot]
    exact .inr ⟨_,rfl,rfl,.inl ⟨0.0,rfl,enter_playing henter⟩⟩

end Ticker

namespace Station

variable {st next : Station β} {gone : List (Slot β)} {seen : List Nat}

theorem turn_request (st : Station β) (r : Request β) :
    (st.request r).ticker = st.ticker ∧ (st.request r).phase = st.phase ∧
      st.scheduler.Turn (st.request r).scheduler := by
  cases r with
  | enqueue tune options =>
    rcases enqueue_cases st tune options with heq | heq
    · rw [request, heq]
      exact ⟨rfl,rfl,.refl _⟩
    · rw [request, heq]
      refine ⟨rfl,rfl,⟨Nat.le_succ _,fun slot hslot => ?_,.inl ⟨rfl,rfl⟩⟩⟩
      rcases List.mem_append.mp hslot with hslot | hslot
      · exact .inl hslot
      · cases List.mem_singleton.mp hslot
        exact .inr le_rfl
  | stop =>
    have hnone : ∀ slot ∈ st.scheduler.stop.current, slot ∈ st.scheduler.queue := by
      simp [Scheduler.stop]
    exact ⟨rfl,rfl,⟨le_rfl,by simp [request, Scheduler.stop],.inr ⟨hnone,rfl⟩⟩⟩
  | skip => exact ⟨rfl,rfl,st.scheduler.turn_advanceQueue⟩
  | remove id => exact ⟨rfl,rfl,st.scheduler.turn_remove id⟩
  | clear => exact ⟨rfl,rfl,Scheduler.turn_of_queue rfl (List.nil_subset _) rfl rfl⟩
  | setVolume volume =>
    refine ⟨rfl,rfl,?_⟩
    simp only [request, Scheduler.setVolume]
    split <;> exact Scheduler.turn_of_queue rfl (List.Subset.refl _) rfl rfl
  | setTempo tempo =>
    refine ⟨rfl,rfl,?_⟩
    simp only [request, Scheduler.setTempo]
    split <;> exact Scheduler.turn_of_queue rfl (List.Subset.refl _) rfl rfl
  | _ => exact ⟨rfl,rfl,Scheduler.turn_of_queue rfl (List.Subset.refl _) rfl rfl⟩

/-! ## Which slots were played -/

/-- The slot that a step moves a player in. -/
def moved (st : Station β) : Step β → List Nat
  | .request _ => []
  | .proceed _ _ =>
    match st.phase with
    | .copied snap _ _ => st.ticker.moves snap
    | _ => []

/-- The slots that players were moved in, in the order of the moves. -/
def moves : List (Step β) → Station β → List Nat
  | [], _ => []
  | a :: rest, st => st.moved a ++ (st.step a).elim [] (moves rest)

/-- The slots that a player was moved in, and the one that the phase under way may move one in. -/
def watched (st : Station β) (seen : List Nat) : List Nat :=
  match st.phase with
  | .copied snap _ _ => seen ++ (snap.slot.map (·.id)).toList
  | _ => seen

/-- The slot that the ticker attends to. -/
def attended (st : Station β) : Option Nat :=
  match st.phase with
  | .copied snap _ _ => snap.slot.map (·.id)
  | .played (.finished slot) _ => some slot.id
  | _ => st.ticker.playing

/-- Players were moved in these slots: none of them waits, and the current one, if it is one of
them, is attended to. -/
structure Tracked (st : Station β) (seen : List Nat) : Prop where
  issued : ∀ id ∈ st.watched seen, id < st.scheduler.nextId
  waiting : ∀ slot ∈ st.scheduler.queue, slot.id ∉ st.watched seen
  current : ∀ slot ∈ st.scheduler.current, slot.id ∈ seen → st.attended = some slot.id
  moving : ∀ x now, st.phase = .played (.position x) now → ∃ id ∈ seen, st.ticker.playing = some id

omit [Beats β] in
theorem mem_watched {id : Nat} (h : id ∈ seen) : id ∈ st.watched seen := by
  unfold watched
  split
  · exact List.mem_append_left _ h
  · exact h

theorem Tracked.turn (h : Tracked st seen) (hplaying : next.ticker.playing = st.ticker.playing)
    (hphase : next.phase = st.phase) (hturn : st.scheduler.Turn next.scheduler) :
    Tracked next seen := by
  have hwatched : next.watched seen = st.watched seen := by
    unfold watched
    rw [hphase]
  have hattended : next.attended = st.attended := by
    unfold attended
    rw [hphase, hplaying]
  refine ⟨?_,?_,?_,?_⟩
  · rw [hwatched]
    exact fun id hid => (h.issued id hid).trans_le hturn.nextId
  · rw [hwatched]
    intro slot hslot hseen
    rcases hturn.queue slot hslot with hqueue | hfresh
    · exact h.waiting slot hqueue hseen
    · exact hfresh.not_gt (h.issued slot.id hseen)
  · rw [hattended]
    intro slot hslot hseen
    rcases hturn.current with ⟨hkept,-⟩ | ⟨hqueue,-⟩
    · exact h.current slot (hkept ▸ hslot) hseen
    · exact absurd (mem_watched hseen) (h.waiting slot (hqueue slot hslot))
  · rw [hphase, hplaying]
    exact h.moving

omit [Beats β] in
theorem Accounted.lt_nextId (h : Accounted st gone) {slot : Slot β}
    (hslot : slot ∈ st.scheduler.slots) : slot.id < st.scheduler.nextId :=
  h.issued slot (h.kept.mem_iff.mpr (List.mem_append_left gone hslot))

omit [Beats β] in
/-- The current slot is not one that waits. -/
theorem Accounted.id_ne (h : Accounted st gone) {current slot : Slot β}
    (hcurrent : st.scheduler.current = some current) (hslot : slot ∈ st.scheduler.queue) :
    slot.id ≠ current.id := by
  have hnodup := h.nodup_slots
  rw [Scheduler.slots, hcurrent, Option.toList_some, List.singleton_append, List.map_cons] at hnodup
  intro hid
  exact (List.nodup_cons.mp hnodup).1 (hid ▸ List.mem_map_of_mem hslot)

omit [Beats β] in
/-- A tick under way has just copied the current slot. -/
theorem Tracked.copy (h : Tracked st seen) (hphase : st.phase = .idle)
    (haccounted : Accounted st gone) {snap : Snapshot β} (hslot : snap.slot = st.scheduler.current)
    (elapsed now : Nat) : Tracked { st with phase := .copied snap elapsed now } seen := by
  have hissued := h.issued
  have hwaiting := h.waiting
  simp only [watched, hphase] at hissued hwaiting
  refine ⟨?_,?_,?_,nofun⟩
  · intro id hid
    rcases List.mem_append.mp hid with hseen | hcopied
    · exact hissued id hseen
    · obtain ⟨slot,hcurrent,rfl⟩ := Option.map_eq_some_iff.mp (Option.mem_toList.mp hcopied)
      rw [hslot] at hcurrent
      exact haccounted.lt_nextId (List.mem_append_left _ (Option.mem_toList.mpr hcurrent))
  · intro slot hqueue hid
    rcases List.mem_append.mp hid with hseen | hcopied
    · exact hwaiting slot hqueue hseen
    · obtain ⟨current,hcurrent,hid⟩ := Option.map_eq_some_iff.mp (Option.mem_toList.mp hcopied)
      rw [hslot] at hcurrent
      exact haccounted.id_ne hcurrent hqueue hid.symm
  · intro slot hcurrent _
    exact congrArg (Option.map (·.id)) (hslot.trans hcurrent)

theorem Tracked.play (h : Tracked st seen) {b : Backend} {snap : Snapshot β} {elapsed now : Nat}
    (hphase : st.phase = .copied snap elapsed now) {t : Ticker β} {sent : List Emission}
    {report : Report β} (hplay : st.ticker.play b snap elapsed = some (t,sent,report))
    (taken : List Message) :
    Tracked { st with ticker := t, phase := .played report now, taken }
      (seen ++ st.ticker.moves snap) := by
  obtain ⟨hissued,hwaiting,hcurrent,-⟩ := h
  simp only [watched, attended, hphase] at hissued hwaiting hcurrent
  rcases Ticker.play_cases hplay with ⟨hmoves,rfl,hplaying⟩ | ⟨slot,hslot,hmoves,hreport⟩
  · rw [hmoves, List.append_nil]
    refine ⟨?_,?_,?_,nofun⟩
    · exact fun id hid => hissued id (List.mem_append_left _ hid)
    · exact fun slot hslot hid => hwaiting slot hslot (List.mem_append_left _ hid)
    · exact fun slot hslot hid => hplaying.trans (hcurrent slot hslot hid)
  · rw [hmoves]
    simp only [hslot, Option.map_some, Option.toList_some, Option.some.injEq]
      at hissued hwaiting hcurrent
    -- the current slot was not put in the place of the copied one, or no player was moved in it
    have hattended : ∀ current ∈ st.scheduler.current, current.id ∈ seen ++ [slot.id] →
        slot.id = current.id := by
      intro current hmem hid
      rcases List.mem_append.mp hid with hseen | hcopied
      · exact hcurrent current hmem hseen
      · exact (List.mem_singleton.mp hcopied).symm
    rcases hreport with ⟨x,rfl,hplaying⟩ | rfl
    · refine ⟨hissued,hwaiting,?_,?_⟩
      · exact fun current hmem hid => hplaying.trans (congrArg some (hattended current hmem hid))
      · exact fun _ _ _ => ⟨slot.id,by simp,hplaying⟩
    · refine ⟨hissued,hwaiting,fun current hmem hid => ?_,nofun⟩
      exact congrArg some (hattended current hmem hid)

/-- A slot that is reported as finished is only retired while it is the current one, and the next
one has not been played. -/
theorem Tracked.report (h : Tracked st seen) {report : Report β} {now : Nat}
    (hphase : st.phase = .played report now) :
    Tracked { st with
      scheduler := (st.ticker.report st.scheduler now report).2
      ticker := (st.ticker.report st.scheduler now report).1
      phase := .idle } seen := by
  obtain ⟨hissued,hwaiting,hcurrent,-⟩ := h
  simp only [watched, attended, hphase] at hissued hwaiting hcurrent
  cases report with
  | nothing => exact ⟨hissued,hwaiting,hcurrent,nofun⟩
  | position x => exact ⟨hissued,hwaiting,hcurrent,nofun⟩
  | finished slot =>
    obtain ⟨hturn,hretired⟩ := Scheduler.turn_finish st.ticker st.scheduler slot now
    refine ⟨fun id hid => (hissued id hid).trans_le hturn.nextId,?_,?_,nofun⟩
    · intro other hother hseen
      rcases hturn.queue other hother with hqueue | hfresh
      · exact hwaiting other hqueue hseen
      · exact hfresh.not_gt (hissued other.id hseen)
    · intro current hmem hseen
      have hqueue : current ∈ st.scheduler.queue := by
        rcases hturn.current with ⟨hkept,-⟩ | ⟨hqueue,-⟩
        · have hid : slot.id = current.id :=
            Option.some.inj (hcurrent current (hkept ▸ hmem) hseen)
          exact hretired current hmem hid.symm
        · exact hqueue current hmem
      exact absurd hseen (hwaiting current hqueue)

theorem Tracked.proceed (h : Tracked st seen) {b : Backend} {clock : Nat}
    (hnext : st.proceed b clock = some next) (haccounted : Accounted next gone) :
    Tracked next (seen ++ st.moved (.proceed b clock)) := by
  cases hphase : st.phase with
  | idle =>
    obtain ⟨hplayer,hturn,hslot⟩ := Scheduler.turn_snapshot
      { st.ticker with lastTick := clock } st.scheduler clock b.available
    rcases hcopy : Ticker.snapshot { st.ticker with lastTick := clock } st.scheduler clock
      b.available with ⟨t,s,snap⟩
    rw [hcopy] at hplayer hturn hslot
    simp only [Station.proceed, hphase, hcopy, Option.some.injEq] at hnext
    subst hnext
    have hbegun : Tracked { st with scheduler := s, ticker := t } seen :=
      h.turn (congrArg (Option.map Player.slotId) hplayer) rfl hturn
    simp only [moved, hphase, List.append_nil]
    exact hbegun.copy hphase ⟨haccounted.ids,haccounted.issued,haccounted.kept⟩ hslot _ _
  | copied snap elapsed now =>
    simp only [Station.proceed, hphase] at hnext
    obtain ⟨⟨t,sent,report⟩,hplay,rfl⟩ := Option.map_eq_some_iff.mp hnext
    simp only [moved, hphase]
    exact h.play hphase hplay _
  | played report now =>
    simp only [Station.proceed, hphase, Option.some.injEq] at hnext
    subst hnext
    simp only [moved, hphase, List.append_nil]
    exact h.report hphase

theorem Tracked.step (h : Tracked st seen) (haccounted : Accounted st gone) {a : Step β}
    (hnext : st.step a = some next) : Tracked next (seen ++ st.moved a) := by
  cases a with
  | request r =>
    cases Option.some.inj hnext
    obtain ⟨hticker,hphase,hturn⟩ := st.turn_request r
    rw [moved, List.append_nil]
    exact h.turn (congrArg Ticker.playing hticker) hphase hturn
  | proceed b clock => exact h.proceed hnext (haccounted.step hnext)

/-! ## What is published -/

/-- The position is where a slot starts if there is no current slot, and as long as no player was
moved in the current one. -/
structure Published (st : Station β) (seen : List Nat) : Prop where
  vacant : st.scheduler.current = none → st.scheduler.position = 0.0
  unmoved : ∀ slot ∈ st.scheduler.current, slot.id ∉ seen → st.scheduler.position = 0.0

/-- A step that reports a position which was reached in another slot than the current one. -/
def Stale (st : Station β) : Step β → Prop
  | .request _ => False
  | .proceed _ _ => ∃ x now, st.phase = .played (.position x) now ∧ x ≠ 0.0 ∧
      st.ticker.playing ≠ st.scheduler.current.map (·.id)

theorem Stale.exists_step {a : Step β} (h : st.Stale a) : ∃ next, st.step a = some next := by
  cases a with
  | request r => exact ⟨_,rfl⟩
  | proceed b clock =>
    obtain ⟨x,now,hphase,-,-⟩ := h
    exact Option.isSome_iff_exists.mp (by simp [Station.step, Station.proceed, hphase])

/-- A position to be reported belongs to the current slot exactly if it is where every slot starts
or was reached in that slot. -/
theorem Tracked.position_iff (h : Tracked st seen) {x : β} {now : Nat}
    (hphase : st.phase = .played (.position x) now) :
    ((st.scheduler.current = none → x = 0.0) ∧
        ∀ slot ∈ st.scheduler.current, slot.id ∉ seen → x = 0.0) ↔
      x = 0.0 ∨ st.ticker.playing = st.scheduler.current.map (·.id) := by
  obtain ⟨id,hid,hplaying⟩ := h.moving x now hphase
  have hknown := h.current
  simp only [attended, hphase] at hknown
  constructor
  · rintro ⟨hvacant,hunmoved⟩
    cases hcurrent : st.scheduler.current with
    | none => exact .inl (hvacant hcurrent)
    | some slot =>
      by_cases hseen : slot.id ∈ seen
      · exact .inr (hknown slot hcurrent hseen)
      · exact .inl (hunmoved slot hcurrent hseen)
  · rintro (hzero | hsame)
    · exact ⟨fun _ => hzero,fun _ _ _ => hzero⟩
    · rw [hplaying] at hsame
      obtain ⟨slot,hslot,hslotId⟩ := Option.map_eq_some_iff.mp hsame.symm
      rw [hslot]
      refine ⟨nofun,fun current hcurrent hnot => ?_⟩
      cases hcurrent
      exact absurd (hslotId ▸ hid) hnot

theorem Published.turn (h : Published st seen) (hturn : st.scheduler.Turn next.scheduler) :
    Published next seen := by
  rcases hturn.current with ⟨hcurrent,hposition⟩ | ⟨-,hposition⟩
  · constructor
    · rw [hcurrent, hposition]
      exact h.vacant
    · rw [hcurrent, hposition]
      exact h.unmoved
  · exact ⟨fun _ => hposition,fun _ _ _ => hposition⟩

theorem Published.proceed_iff (h : Published st seen) (htracked : Tracked st seen) {b : Backend}
    {clock : Nat} (hnext : st.proceed b clock = some next) :
    Published next (seen ++ st.moved (.proceed b clock)) ↔ ¬st.Stale (.proceed b clock) := by
  cases hphase : st.phase with
  | idle =>
    obtain ⟨-,hturn,-⟩ := Scheduler.turn_snapshot
      { st.ticker with lastTick := clock } st.scheduler clock b.available
    simp only [Station.proceed, hphase, Option.some.injEq] at hnext
    subst hnext
    simp only [moved, hphase, List.append_nil]
    exact iff_of_true (h.turn hturn) (by simp [Stale, hphase])
  | copied snap elapsed now =>
    simp only [Station.proceed, hphase] at hnext
    obtain ⟨played,-,rfl⟩ := Option.map_eq_some_iff.mp hnext
    refine iff_of_true ⟨h.vacant,fun slot hslot hnot => ?_⟩ (by simp [Stale, hphase])
    exact h.unmoved slot hslot fun hseen => hnot (List.mem_append_left _ hseen)
  | played report now =>
    simp only [Station.proceed, hphase, Option.some.injEq] at hnext
    subst hnext
    simp only [moved, hphase, List.append_nil]
    cases report with
    | nothing => exact iff_of_true ⟨h.vacant,h.unmoved⟩ (by simp [Stale, hphase])
    | finished slot =>
      exact iff_of_true (h.turn (Scheduler.turn_finish st.ticker st.scheduler slot now).1)
        (by simp [Stale, hphase])
    | position x =>
      have hstale : ¬st.Stale (.proceed b clock) ↔
          x = 0.0 ∨ st.ticker.playing = st.scheduler.current.map (·.id) := by
        simp only [Stale, hphase, Phase.played.injEq, Report.position.injEq]
        constructor
        · intro hfresh
          by_contra hnot
          exact hfresh ⟨x,now,⟨rfl,rfl⟩,not_or.mp hnot⟩
        · rintro hfresh ⟨_,_,⟨rfl,rfl⟩,hnot⟩
          exact not_or.mpr hnot hfresh
      rw [hstale, ← htracked.position_iff hphase]
      constructor
      · exact fun hpublished => ⟨hpublished.vacant,hpublished.unmoved⟩
      · exact fun hboth => ⟨hboth.1,hboth.2⟩

theorem Published.step_iff (h : Published st seen) (htracked : Tracked st seen) {a : Step β}
    (hnext : st.step a = some next) : Published next (seen ++ st.moved a) ↔ ¬st.Stale a := by
  cases a with
  | request r =>
    cases Option.some.inj hnext
    rw [moved, List.append_nil]
    exact iff_of_true (h.turn (st.turn_request r).2.2) id
  | proceed b clock => exact h.proceed_iff htracked hnext

/-! ## Runs -/

/-- What every step keeps, a run keeps. -/
theorem follow_keeps {P : Station β → Prop}
    (hstep : ∀ {st next : Station β} {a : Step β}, P st → st.step a = some next → P next) (h : P st)
    {steps : List (Step β)} {last : Station β} (hrun : follow steps st = some last) : P last := by
  induction steps generalizing st with
  | nil =>
    cases Option.some.inj hrun
    exact h
  | cons a rest ih =>
    obtain ⟨next,hnext,hrest⟩ := Option.bind_eq_some_iff.mp hrun
    exact ih (hstep h hnext) hrest

theorem follow_append (before after : List (Step β)) (st : Station β) :
    follow (before ++ after) st = (follow before st).bind (follow after) := by
  induction before generalizing st with
  | nil => rfl
  | cons a rest ih =>
    rw [List.cons_append, follow, follow, Option.bind_assoc]
    exact congrArg _ (funext ih)

theorem follow_concat (steps : List (Step β)) (a : Step β) (st : Station β) :
    follow (steps ++ [a]) st = (follow steps st).bind (·.step a) := by
  rw [follow_append]
  exact congrArg _ (funext fun last => Option.bind_fun_some (last.step a))

theorem moves_concat {steps : List (Step β)} (a : Step β) {st last : Station β}
    (h : follow steps st = some last) :
    moves (steps ++ [a]) st = moves steps st ++ last.moved a := by
  induction steps generalizing st with
  | nil =>
    cases h
    cases hstep : last.step a <;> simp [moves, hstep]
  | cons first rest ih =>
    obtain ⟨next,hnext,hrest⟩ := Option.bind_eq_some_iff.mp h
    rw [List.cons_append, moves, moves, hnext, List.append_assoc]
    exact congrArg (st.moved first ++ ·) (ih hrest)

theorem Tracked.follow (h : Tracked st []) (haccounted : Accounted st []) {steps : List (Step β)}
    {last : Station β} (hrun : follow steps st = some last) : Tracked last (moves steps st) := by
  induction steps using List.reverseRecOn generalizing last with
  | nil =>
    cases hrun
    exact h
  | append_singleton steps a ih =>
    rw [follow_concat] at hrun
    obtain ⟨mid,hmid,hlast⟩ := Option.bind_eq_some_iff.mp hrun
    rw [moves_concat a hmid]
    exact (ih hmid).step (haccounted.follow hmid) hlast

theorem tracked_new (slots notes usualGap now : Nat) (volume : Float32) (tempo : β)
    (available : Bool) :
    Tracked (new (.new slots volume tempo available) (.new usualGap notes now)) [] where
  issued := by simp [new, watched]
  waiting := by simp [new, watched]
  current := by simp
  moving := by simp [new]

/-- From an empty queue, whatever the order of requests and phases, the position belongs to the
current slot in all states up to a step exactly if none of the steps before reports a position that
was reached in another slot: without a current slot it is zero, and so it is until the ticker has
moved a player in the current one. -/
theorem follow_published_iff (slots notes usualGap start : Nat) (volume : Float32) (tempo : β)
    (available : Bool) (steps : List (Step β)) :
    let st := new (.new slots volume tempo available) (.new usualGap notes start)
    (∀ before, before <+: steps → ∀ mid, follow before st = some mid →
        Published mid (moves before st)) ↔
      ∀ before a, before ++ [a] <+: steps → ∀ mid, follow before st = some mid → ¬mid.Stale a := by
  intro st
  have hstep : ∀ before a mid next, follow before st = some mid → mid.step a = some next →
      Published mid (moves before st) →
        (Published next (moves (before ++ [a]) st) ↔ ¬mid.Stale a) := by
    intro before a mid next hmid hnext hpublished
    have htracked : Tracked mid (moves before st) :=
      (tracked_new slots notes usualGap start volume tempo available).follow
        (accounted_new slots notes usualGap start volume tempo available) hmid
    rw [moves_concat a hmid]
    exact hpublished.step_iff htracked hnext
  constructor
  · intro hall before a hbefore mid hmid hstale
    obtain ⟨next,hnext⟩ := hstale.exists_step
    have hafter : follow (before ++ [a]) st = some next := by
      rw [follow_concat, hmid]
      exact hnext
    exact (hstep before a mid next hmid hnext
      (hall before ((List.prefix_append before [a]).trans hbefore) mid hmid)).mp
        (hall _ hbefore next hafter) hstale
  · intro hfresh before
    induction before using List.reverseRecOn with
    | nil =>
      intro _ mid hmid
      cases hmid
      exact ⟨fun _ => rfl,fun _ _ _ => rfl⟩
    | append_singleton before a ih =>
      intro hbefore next hnext
      rw [follow_concat] at hnext
      obtain ⟨mid,hmid,hnext⟩ := Option.bind_eq_some_iff.mp hnext
      exact (hstep before a mid next hmid hnext
        (ih ((List.prefix_append before [a]).trans hbefore) mid hmid)).mpr
          (hfresh before a hbefore mid hmid)

/-- A tune is queued and played for a second, and stopped before the tick has reported. -/
def unreported : List (Step Float) :=
  .request (.enqueue (Player.overlapping Float).tune .once) ::
    List.replicate 3 (.proceed .accepting 0) ++
      List.replicate 2 (.proceed .accepting 1000000000) ++
        [.request .stop, .proceed .accepting 1000000000]

/-- The position that was reached in a slot is written where there is no slot any more. -/
theorem follow_published_stopped :
    ∃ last, follow unreported (new (.new 8 1.0 1.0 true) (.new 0 4 0)) = some last ∧
      last.scheduler.current = none ∧ last.scheduler.position = 2 := by
  have hevaluated :
      (follow unreported (new (.new 8 1.0 1.0 true) (.new 0 4 0))).map (fun last =>
          (last.scheduler.current.map (·.id),last.scheduler.position)) = some (none,2) := by
    decide +kernel
  obtain ⟨last,hrun,hlast⟩ := Option.map_eq_some_iff.mp hevaluated
  obtain ⟨hcurrent,hposition⟩ := Prod.mk.inj hlast
  exact ⟨last,hrun,Option.map_eq_none_iff.mp hcurrent,hposition⟩

end Station
end AbcTune
