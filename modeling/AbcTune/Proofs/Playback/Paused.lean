import AbcTune.Proofs.Playback.Progress
import AbcTune.Proofs.Playback.Requests
import AbcTune.Proofs.Playback.Sounding

/-! # Ticks while playing is paused

A tick that has copied a paused state leaves alone the player of a slot that plays already. A slot
that has become the current one since the last tick is entered all the same: it plays the notes that
start with it, and only then does the pause hold.
-/
namespace AbcTune
open Number

/-- Whether a message puts a key down. -/
def Message.isNoteOn : Message → Bool
  | .noteOn _ _ _ => true
  | .noteOff _ _ => false
  | .programChange _ _ => false

/-- The events that are due where a slot starts. -/
def Slot.opening (slot : Slot Float) : List (Note Float) :=
  slot.tune.events.takeWhile fun event => event.start ≤ beatSlack

namespace Player

variable {b : Backend} {volume : Float32} {p q : Player Float} {limit : Float}
variable {sent : List Emission}

/-! ## Players without a sounding note -/

theorem isBeyond_of_not_le {start : Float} (hlimit : limit < top) (h : ¬start ≤ limit) :
    isBeyond limit (earliest (some top) (some start)) = true := by
  rw [earliest, earlier_eq top_le_top]
  refine decide_eq_true ?_
  split
  · next hstart => exact lt_of_not_le (le_self_of_lt hstart) (le_self_of_lt hlimit) h
  · exact hlimit

/-- Where nothing sounds, only an event can fall due. -/
theorem step_of_active_nil (hactive : p.active = []) (hlimit : limit < top) :
    p.step b volume limit =
      match p.upcoming with
      | [] => none
      | event :: rest =>
        if event.start ≤ limit then some (sound { p with upcoming := rest } b volume event)
        else none := by
  have hoff : p.nextOff = some top := by rw [nextOff, hactive]; rfl
  unfold step
  rw [hoff]
  cases hup : p.upcoming with
  | nil =>
    have hon : p.nextOn = some top := by rw [nextOn, hup]; rfl
    rw [hon]
    exact if_pos (decide_eq_true hlimit)
  | cons event rest =>
    have hon : p.nextOn = some event.start := by rw [nextOn, hup]
    rw [hon]
    by_cases hle : event.start ≤ limit
    · have hstart := lt_top_of_le hle hlimit
      have hdue : ¬isBeyond limit (earliest (some top) (some event.start)) = true := by
        rw [earliest, earlier_eq top_le_top, if_pos hstart]
        exact fun hbeyond => not_lt_of_le hle (of_decide_eq_true hbeyond)
      have hfirst : ¬offFirst (some top) (some event.start) = true := fun hfirst =>
        not_lt_of_le (of_decide_eq_true hfirst) hstart
      rw [if_neg hdue, if_neg hfirst]
      exact (if_pos hle).symm
    · rw [if_pos (isBeyond_of_not_le hlimit hle)]
      exact (if_neg hle).symm

theorem sound_of_silent {event : Note Float} (h : dispatchVelocity event.velocity volume = 0) :
    p.sound b volume event = (p,[]) := by
  unfold sound
  exact if_pos h

theorem exists_isNoteOn_of_sound (haccepts : ∀ m, b.refusal? m = none) {event : Note Float}
    (h : dispatchVelocity event.velocity volume ≠ 0) :
    ∃ m ∈ Emission.taken (p.sound b volume event).2, m.isNoteOn = true := by
  refine ⟨.noteOn event.channel event.pitch (dispatchVelocity event.velocity volume),?_,rfl⟩
  unfold sound
  dsimp only
  rw [if_neg h, haccepts]
  simp [Emission.taken, Emission.taken?]

/-- A player without a sounding note stays silent up to a limit exactly if none of the events that
start by then has a velocity. -/
theorem run_silent_iff (haccepts : ∀ m, b.refusal? m = none) (volume : Float32)
    (hlimit : limit < top) {fuel : Nat} (hfuel : p.mostSteps < fuel) (hactive : p.active = []) :
    ∃ q sent, run b volume limit fuel p = some (q,sent) ∧
      ((∀ m ∈ Emission.taken sent, m.isNoteOn = false) ↔
        ∀ event ∈ p.upcoming.takeWhile (·.start ≤ limit),
          dispatchVelocity event.velocity volume = 0) := by
  induction hup : p.upcoming generalizing p fuel with
  | nil =>
    obtain ⟨fuel,rfl⟩ : ∃ n, fuel = n + 1 := ⟨fuel - 1,by omega⟩
    have hstep : p.step b volume limit = none := by rw [step_of_active_nil hactive hlimit, hup]
    exact ⟨p,[],by rw [run, hstep],by simp [Emission.taken]⟩
  | cons event rest ih =>
    obtain ⟨fuel,rfl⟩ : ∃ n, fuel = n + 1 := ⟨fuel - 1,by omega⟩
    by_cases hle : event.start ≤ limit
    · obtain ⟨r,heard,hsound⟩ : ∃ r heard,
          sound { p with upcoming := rest } b volume event = (r,heard) := ⟨_,_,rfl⟩
      have hstep : p.step b volume limit = some (r,heard) := by
        rw [step_of_active_nil hactive hlimit, hup, ← hsound]
        exact if_pos hle
      have hless := (usesUp_of_lt_top b volume hlimit hstep).mostSteps_lt
      rw [List.takeWhile_cons, if_pos (decide_eq_true hle)]
      by_cases hsilent : dispatchVelocity event.velocity volume = 0
      · cases hsound.symm.trans (sound_of_silent hsilent)
        obtain ⟨q,sent,hrun,hiff⟩ :=
          ih (p := { p with upcoming := rest }) (show _ < fuel by omega) hactive rfl
        refine ⟨q,sent,by rw [run, hstep]; simp [hrun],hiff.trans ?_⟩
        simp [hsilent]
      · -- the event is heard, whatever else falls due
        obtain ⟨q,more,hrun⟩ := exists_run_of_usesUp b volume
          (fun _ _ _ => usesUp_of_lt_top b volume hlimit) (show r.mostSteps < fuel by omega)
        obtain ⟨m,hm,hon⟩ := exists_isNoteOn_of_sound (p := { p with upcoming := rest })
          haccepts hsilent
        rw [hsound] at hm
        refine ⟨q,heard ++ more,by rw [run, hstep]; simp [hrun],iff_of_false ?_ fun hall => ?_⟩
        · intro hall
          rw [Emission.taken_append] at hall
          simp [hall m (List.mem_append_left _ hm)] at hon
        · exact hsilent (hall event List.mem_cons_self)
    · have hstep : p.step b volume limit = none := by
        rw [step_of_active_nil hactive hlimit, hup]
        exact if_neg hle
      refine ⟨p,[],by rw [run, hstep],?_⟩
      rw [List.takeWhile_cons, if_neg (by simpa using hle)]
      simp [Emission.taken]

/-! ## Entering a slot -/

theorem reach_new (slot : Slot Float) (capacity : Nat) :
    (new slot capacity).reach 0.0 = beatSlack :=
  eq_of_bits_eq (by decide : bits (0.0 + Beats.later 0.0 0.0 + beatSlack) = bits beatSlack)

theorem advance_new (haccepts : ∀ m, b.refusal? m = none) (volume : Float32) (slot : Slot Float)
    (capacity : Nat) :
    ∃ q sent, (new slot capacity).advance b 0.0 volume = some (q,sent) ∧ q.position = 0.0 ∧
      ((∀ m ∈ Emission.taken sent, m.isNoteOn = false) ↔
        ∀ event ∈ slot.opening, dispatchVelocity event.velocity volume = 0) := by
  have hlimit : (new slot capacity).reach 0.0 < top := by rw [reach_new]; decide
  obtain ⟨q,sent,hrun,hiff⟩ := run_silent_iff haccepts volume hlimit
    (Nat.lt_succ_self (new slot capacity).mostSteps) rfl
  refine ⟨{ q with position := 0.0 + Beats.later 0.0 0.0 },sent,?_,?_,?_⟩
  · unfold advance
    exact congrArg (Option.map _) hrun
  · exact eq_of_bits_eq (by decide : bits (0.0 + Beats.later 0.0 0.0) = bits 0.0)
  · rw [hiff, reach_new]
    rfl

/-! ## Messages that put no key down -/

theorem eq_of_taken_send {m m' : Message} (h : (b.send m).taken? = some m') : m' = m := by
  unfold Backend.send Emission.taken? at h
  split at h
  · next heq =>
    cases h
    exact (Emission.sent.inj heq).1.symm
  · cases h

theorem isNoteOn_offs (active : List (ActiveNote Float)) :
    ∀ m ∈ Emission.taken (active.map (off b)), m.isNoteOn = false := by
  intro m hm
  obtain ⟨e,he,htaken⟩ := List.mem_filterMap.mp hm
  obtain ⟨n,-,rfl⟩ := List.mem_map.mp he
  rw [eq_of_taken_send htaken]
  rfl

theorem isNoteOn_start (p : Player Float) :
    ∀ m ∈ Emission.taken (p.start b), m.isNoteOn = false := by
  intro m hm
  obtain ⟨e,he,htaken⟩ := List.mem_filterMap.mp hm
  obtain ⟨⟨channel,program⟩,-,rfl⟩ := List.mem_map.mp he
  rw [eq_of_taken_send htaken]
  rfl

end Player

namespace Ticker

variable {b : Backend} {snap : Snapshot Float}

/-- Where the ticker is in the slot that it plays. -/
def cursor (t : Ticker Float) : Option Float := t.player.map (·.position)

theorem leave_silent (t : Ticker Float) :
    ∃ released, t.leave b = ({ t with player := none },released) ∧
      ∀ m ∈ Emission.taken released, m.isNoteOn = false := by
  obtain ⟨player,gapUntil,lastTick,usualGap,capacity⟩ := t
  cases player with
  | none => exact ⟨[],rfl,by simp [Emission.taken]⟩
  | some p => exact ⟨_,rfl,Player.isNoteOn_offs p.active⟩

theorem enter_silent_iff (haccepts : ∀ m, b.refusal? m = none) (t : Ticker Float)
    (slot : Slot Float) (volume : Float32) :
    ∃ q sent, t.enter b slot volume = some ({ t with player := some q },sent) ∧
      q.position = 0.0 ∧ ((∀ m ∈ Emission.taken sent, m.isNoteOn = false) ↔
        ∀ event ∈ slot.opening, dispatchVelocity event.velocity volume = 0) := by
  obtain ⟨q,sent,hmove,hposition,hiff⟩ :=
    Player.advance_new haccepts volume slot t.capacity
  refine ⟨q,_,by unfold enter; simp only [hmove, Option.map_some]; rfl,hposition,?_⟩
  rw [← hiff, Emission.taken_append]
  refine ⟨fun hall m hm => hall m (List.mem_append_right _ hm),fun hall m hm => ?_⟩
  rcases List.mem_append.mp hm with hstart | hsent
  · exact Player.isNoteOn_start _ m hstart
  · exact hall m hsent

/-- A tick that has copied a paused state keeps the player of a slot that plays already, and puts
no key down. A slot that does not play yet is entered: its cursor is where it starts, and its
opening notes are sent. -/
theorem play_paused (haccepts : ∀ m, b.refusal? m = none) (t : Ticker Float)
    (hpaused : snap.paused = true) (elapsed : Nat) :
    ∃ next sent report, t.play b snap elapsed = some (next,sent,report) ∧
      next.cursor =
        (if t.playing = snap.slot.map (·.id) then t.cursor else snap.slot.map fun _ => 0.0) ∧
      ((∀ m ∈ Emission.taken sent, m.isNoteOn = false) ↔
        t.playing = snap.slot.map (·.id) ∨ ∀ slot ∈ snap.slot, ∀ event ∈ slot.opening,
          dispatchVelocity event.velocity snap.volume = 0) := by
  unfold play
  by_cases hsame : t.playing = snap.slot.map (·.id)
  · rw [if_pos hsame, if_pos hsame]
    refine ⟨t,[],.nothing,?_,rfl,by simp [hsame, Emission.taken]⟩
    split
    · exact if_pos hpaused
    · rfl
  · rw [if_neg hsame, if_neg hsame]
    obtain ⟨released,hleave,hreleased⟩ := t.leave_silent (b := b)
    rw [hleave]
    cases hslot : snap.slot with
    | none => exact ⟨_,released,.nothing,rfl,rfl,iff_of_true hreleased (.inr (by simp))⟩
    | some slot =>
      obtain ⟨q,sent,henter,hposition,hiff⟩ :=
        enter_silent_iff haccepts { t with player := none } slot snap.volume
      refine ⟨{ t with player := some q },released ++ sent,.position 0.0,?_,?_,?_⟩
      · dsimp only
        rw [henter]
        rfl
      · exact congrArg some hposition
      · rw [hslot] at hsame
        rw [Emission.taken_append, or_iff_right hsame]
        simp only [List.mem_append, Option.mem_some_iff, forall_eq', ← hiff]
        exact ⟨fun hall m hm => hall m (.inr hm),fun hall m hm => hm.elim (hreleased m) (hall m)⟩

end Ticker

/-- What a tick under way has copied of a paused state. -/
def Phase.paused? {β : Type} : Phase β → Option (Snapshot β)
  | .copied snap _ _ => if snap.paused then some snap else none
  | _ => none

namespace Station

variable {b : Backend} {snap : Snapshot Float}

theorem phase_of_paused {phase : Phase Float} (h : phase.paused? = some snap) :
    ∃ elapsed now, phase = .copied snap elapsed now ∧ snap.paused = true := by
  unfold Phase.paused? at h
  split at h
  · next copied elapsed now =>
    split at h
    · next hpaused =>
      cases h
      exact ⟨elapsed,now,rfl,hpaused⟩
    · cases h
  · cases h

/-- In every state of the shared state and the ticker, a tick that has copied a paused state plays
on, and no cursor moves but to the start of a slot. It puts no key down exactly if the slot that was
current is the one that plays already, or if there is no note to be heard where that slot starts. -/
theorem proceed_paused (haccepts : ∀ m, b.refusal? m = none) (st : Station Float)
    (hpaused : st.phase.paused? = some snap) (clock : Nat) :
    ∃ next sent, st.proceed b clock = some next ∧ next.taken = st.taken ++ sent ∧
      next.ticker.cursor =
        (if st.ticker.playing = snap.slot.map (·.id) then st.ticker.cursor
          else snap.slot.map fun _ => 0.0) ∧
      ((∀ m ∈ sent, m.isNoteOn = false) ↔
        st.ticker.playing = snap.slot.map (·.id) ∨ ∀ slot ∈ snap.slot, ∀ event ∈ slot.opening,
          dispatchVelocity event.velocity snap.volume = 0) := by
  obtain ⟨elapsed,now,hphase,htrue⟩ := phase_of_paused hpaused
  obtain ⟨t,sent,report,hplay,hcursor,hiff⟩ := st.ticker.play_paused haccepts htrue elapsed
  exact ⟨_,_,by simp only [proceed, hphase, hplay, Option.map_some]; rfl,rfl,hcursor,hiff⟩

/-- Two tunes are queued, and the first one plays when the requests come; then a tick begins. -/
def interrupted (requests : List (Request Float)) : List (Step Float) :=
  List.replicate 2 (.request (.enqueue (Player.overlapping Float).tune .once)) ++
    List.replicate 3 (.proceed .accepting 0) ++ requests.map .request ++ [.proceed .accepting 0]

/-- The first tune is paused while it plays. -/
theorem proceed_paused_playing :
    ∃ st snap next, follow (interrupted [.pause]) (new (.new 8 1.0 1.0 true) (.new 0 4 0)) =
        some st ∧ st.phase.paused? = some snap ∧ st.ticker.playing = snap.slot.map (·.id) ∧
      st.proceed .accepting 0 = some next ∧ next.ticker.cursor = st.ticker.cursor ∧
      ∃ sent, next.taken = st.taken ++ sent ∧ ∀ m ∈ sent, m.isNoteOn = false := by
  have hevaluated :
      (follow (interrupted [.pause]) (new (.new 8 1.0 1.0 true) (.new 0 4 0))).map (fun st =>
        (st.phase.paused?.map fun snap => snap.slot.map (·.id),st.ticker.playing)) =
      some (some (some 1),some 1) := by
    decide +kernel
  obtain ⟨st,hrun,hst⟩ := Option.map_eq_some_iff.mp hevaluated
  obtain ⟨hphase,hplaying⟩ := Prod.mk.inj hst
  obtain ⟨snap,hsnap,hslot⟩ := Option.map_eq_some_iff.mp hphase
  have hsame : st.ticker.playing = snap.slot.map (·.id) := hplaying.trans hslot.symm
  obtain ⟨next,sent,hnext,htaken,hcursor,hiff⟩ :=
    proceed_paused (b := .accepting) (fun _ => rfl) st hsnap 0
  rw [if_pos hsame] at hcursor
  exact ⟨st,snap,next,hrun,hsnap,hsame,hnext,hcursor,sent,htaken,hiff.mpr (.inl hsame)⟩

/-- The first tune is skipped, and playing is paused before the ticker has seen the second one: the
tick that has copied the paused state sends the first note of the second tune. -/
theorem proceed_paused_skipped :
    ∃ st snap next, follow (interrupted [.skip, .pause])
        (new (.new 8 1.0 1.0 true) (.new 0 4 0)) = some st ∧ st.phase.paused? = some snap ∧
      st.proceed .accepting 0 = some next ∧
      next.taken = st.taken ++ [.noteOff 0 60, .noteOn 0 60 80] := by
  have hevaluated :
      (follow (interrupted [.skip, .pause]) (new (.new 8 1.0 1.0 true) (.new 0 4 0))).map (fun st =>
        (st.phase.paused?.isSome,(st.proceed .accepting 0).map fun next =>
          decide (next.taken = st.taken ++ [.noteOff 0 60, .noteOn 0 60 80]))) =
      some (true,some true) := by
    decide +kernel
  obtain ⟨st,hrun,hst⟩ := Option.map_eq_some_iff.mp hevaluated
  obtain ⟨hphase,hproceed⟩ := Prod.mk.inj hst
  obtain ⟨snap,hsnap⟩ := Option.isSome_iff_exists.mp hphase
  obtain ⟨next,hnext,htaken⟩ := Option.map_eq_some_iff.mp hproceed
  exact ⟨st,snap,next,hrun,hsnap,hnext,of_decide_eq_true htaken⟩

end Station
end AbcTune
