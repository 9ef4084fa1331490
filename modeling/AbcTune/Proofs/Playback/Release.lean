import AbcTune.Proofs.Playback.Order
import AbcTune.Proofs.Playback.Paused

/-! # Nothing is left sounding

With a backend that takes every message, the keys that are down are always those of the notes that
the ticker's player counts as sounding. A player goes for one of three reasons: its slot is no
longer the current one, its slot is finished, or the ticker itself ends. Its notes are released
first, or there are none, so nothing sounds without a player.
-/
namespace AbcTune

variable {β : Type}

namespace Ticker

/-- The keys of the notes that count as sounding. -/
def keys (t : Ticker β) : List (Nat × Nat) := t.player.elim [] Player.keys

/-- After these messages the keys of the player are down, and none if there is no player. -/
def Shows (t : Ticker β) (ms : List Message) : Prop :=
  match t.player with
  | none => Message.Orderly ms []
  | some p => ∃ most, 0 < most ∧ p.Shows most ms

variable {b : Backend} {t next : Ticker β} {ms : List Message} {sent : List Emission}

theorem Shows.of_player {p : Player β} (hplayer : t.player = some p) (h : t.Shows ms) :
    ∃ most, 0 < most ∧ p.Shows most ms := by
  rwa [Shows, hplayer] at h

theorem Shows.orderly (h : t.Shows ms) : Message.Orderly ms t.keys := by
  unfold keys
  cases hplayer : t.player with
  | none => rwa [Shows, hplayer] at h
  | some p =>
    obtain ⟨most,-,hp⟩ := h.of_player hplayer
    exact hp.orderly

theorem shows_of_player_eq (hplayer : next.player = t.player) (h : t.Shows ms) :
    next.Shows ms := by
  unfold Shows
  rw [hplayer]
  exact h

/-- A player that goes has the keys of all its notes lifted. -/
theorem taken_leave (haccepts : ∀ m, b.refusal? m = none) (t : Ticker β) :
    Emission.taken (t.leave b).2 = t.keys.map Message.lift := by
  unfold leave keys
  cases t.player with
  | none => rfl
  | some p => exact Player.taken_offs haccepts p.active

theorem Shows.leave (haccepts : ∀ m, b.refusal? m = none) (h : t.Shows ms) :
    Message.Orderly (ms ++ Emission.taken (t.leave b).2) [] := by
  rw [taken_leave haccepts]
  refine Message.Orderly.lifts ?_
  rw [List.append_nil]
  exact h.orderly

variable [Beats β]

/-- A slot is entered where nothing sounds, with room for one note at least. -/
theorem shows_enter (haccepts : ∀ m, b.refusal? m = none) (h : Message.Orderly ms [])
    {slot : Slot β} {volume : Float32} (henter : t.enter b slot volume = some (next,sent)) :
    next.Shows (ms ++ Emission.taken sent) := by
  obtain ⟨⟨q,moved⟩,hmove,heq⟩ := Option.map_eq_some_iff.mp henter
  cases heq
  have hroom : 0 < max t.capacity 1 := Nat.lt_of_lt_of_le Nat.one_pos (Nat.le_max_right _ _)
  have hnew : (Player.new slot t.capacity).Shows (max t.capacity 1) ms := ⟨h,rfl,Nat.zero_le _⟩
  have hmoved := (hnew.start haccepts).advance haccepts hroom hmove
  rw [List.append_assoc, ← Emission.taken_append] at hmoved
  exact ⟨_,hroom,hmoved⟩

theorem keys_of_isFinished {q : Player β} (h : q.isFinished = true) : q.keys = [] := by
  unfold Player.isFinished at h
  simp only [Bool.and_eq_true, List.isEmpty_iff] at h
  rw [Player.keys, h.1.2, List.map_nil]

theorem Moved.shows {snap : Snapshot β} {elapsed : Nat} {slot : Slot β} {p q : Player β}
    (haccepts : ∀ m, b.refusal? m = none) (h : t.Shows ms)
    (hmoved : Moved b snap elapsed t slot p q sent) :
    ∃ most, 0 < most ∧ q.Shows most (ms ++ Emission.taken sent) := by
  obtain ⟨most,hroom,hp⟩ := h.of_player hmoved.player
  exact ⟨most,hroom,hp.advance haccepts hroom hmoved.move⟩

/-- Whatever a tick does, it keeps account of what sounds. -/
theorem Course.shows {snap : Snapshot β} {elapsed : Nat} {report : Report β}
    (haccepts : ∀ m, b.refusal? m = none) (h : t.Shows ms)
    (hcourse : Course b snap elapsed t next sent report) :
    next.Shows (ms ++ Emission.taken sent) := by
  cases hcourse with
  | still hsame _ => simpa [Emission.taken] using h
  | move hmoved _ => exact hmoved.shows haccepts h
  | loop hmoved _ _ =>
    obtain ⟨most,hroom,hq⟩ := hmoved.shows haccepts h
    have hreleased := hq.releaseAll haccepts
    rw [List.append_assoc, ← Emission.taken_append] at hreleased
    exact ⟨most,hroom,hreleased.orderly,hreleased.capacity,hreleased.room⟩
  | finish hmoved hfinished _ =>
    -- nothing sounds any more when a slot is finished, so its player goes without a message
    obtain ⟨most,-,hq⟩ := hmoved.shows haccepts h
    have horderly := hq.orderly
    rwa [keys_of_isFinished hfinished] at horderly
  | leave _ _ =>
    rw [leave_eq]
    exact h.leave haccepts
  | enter _ _ henter =>
    rw [Emission.taken_append, ← List.append_assoc]
    exact shows_enter haccepts (h.leave haccepts) henter

end Ticker

namespace Station

variable [Beats β] {st next : Station β}

/-- A phase of the ticker has a backend that takes every message. -/
def Step.Accepts : Step β → Prop
  | .request _ => True
  | .proceed b _ => ∀ m, b.refusal? m = none

/-- What is left when the ticker has ended. -/
def exit (st : Station β) (b : Backend) : Station β :=
  let (t,sent) := st.ticker.leave b
  { st with ticker := t, taken := st.taken ++ Emission.taken sent }

theorem taken_request (st : Station β) (r : Request β) : (st.request r).taken = st.taken := by
  cases r with
  | enqueue tune options =>
    rcases enqueue_cases st tune options with heq | heq
    · rw [request, heq]
    · rw [request, heq]
  | _ => rfl

theorem taken_requests (rs : List (Request β)) (st : Station β) :
    (rs.foldl request st).taken = st.taken := by
  induction rs generalizing st with
  | nil => rfl
  | cons r rs ih => exact (ih (st.request r)).trans (st.taken_request r)

theorem shows_proceed {b : Backend} {clock : Nat} (haccepts : ∀ m, b.refusal? m = none)
    (h : st.ticker.Shows st.taken) (hnext : st.proceed b clock = some next) :
    next.ticker.Shows next.taken := by
  cases hphase : st.phase with
  | idle =>
    obtain ⟨hplayer,-,-⟩ := Scheduler.turn_snapshot
      { st.ticker with lastTick := clock } st.scheduler clock b.available
    simp only [Station.proceed, hphase, Option.some.injEq] at hnext
    subst hnext
    exact Ticker.shows_of_player_eq hplayer h
  | copied snap elapsed now =>
    simp only [Station.proceed, hphase] at hnext
    obtain ⟨⟨t,sent,report⟩,hplay,rfl⟩ := Option.map_eq_some_iff.mp hnext
    exact (Ticker.course_of_play hplay).shows haccepts h
  | played report now =>
    simp only [Station.proceed, hphase, Option.some.injEq] at hnext
    subst hnext
    cases report with
    | finished slot =>
      exact Ticker.shows_of_player_eq (st.scheduler.finish_sublist st.ticker slot now).1 h
    | _ => exact h

theorem shows_step {a : Step β} (haccepts : a.Accepts) (h : st.ticker.Shows st.taken)
    (hnext : st.step a = some next) : next.ticker.Shows next.taken := by
  cases a with
  | request r =>
    cases Option.some.inj hnext
    rw [st.taken_request r, (st.turn_request r).1]
    exact h
  | proceed b clock => exact shows_proceed haccepts h hnext

theorem shows_follow {steps : List (Step β)} (haccepts : ∀ a ∈ steps, a.Accepts)
    (h : st.ticker.Shows st.taken) {last : Station β} (hrun : follow steps st = some last) :
    last.ticker.Shows last.taken := by
  induction steps generalizing st with
  | nil =>
    cases Option.some.inj hrun
    exact h
  | cons a rest ih =>
    obtain ⟨next,hnext,hrest⟩ := Option.bind_eq_some_iff.mp hrun
    have hstep := shows_step (haccepts a List.mem_cons_self) h hnext
    exact ih (fun other hother => haccepts other (List.mem_cons_of_mem a hother)) hstep hrest

/-- A tick that has copied another slot than the ticker plays lifts the keys of the old one before
it sends anything of the new one. -/
theorem exists_proceed_of_ne {st : Station Float} {b : Backend}
    (haccepts : ∀ m, b.refusal? m = none) {snap : Snapshot Float} {elapsed now : Nat}
    (hphase : st.phase = .copied snap elapsed now)
    (hother : st.ticker.playing ≠ snap.slot.map (·.id)) (clock : Nat) :
    ∃ next sent, st.proceed b clock = some next ∧
      next.taken = st.taken ++ st.ticker.keys.map Message.lift ++ sent ∧
      (snap.slot = none → sent = []) ∧
      ∀ slot ∈ snap.slot, ∃ entered emitted,
        (st.ticker.leave b).1.enter b slot snap.volume = some (entered,emitted) ∧
          sent = Emission.taken emitted := by
  rw [← Ticker.taken_leave haccepts]
  cases hslot : snap.slot with
  | none =>
    rw [hslot] at hother
    simp only [proceed, hphase, Ticker.play_leave elapsed hother hslot, Option.map_some]
    refine ⟨_,[],rfl,?_,fun _ => rfl,fun slot hslot => absurd hslot (Option.not_mem_none slot)⟩
    rw [List.append_nil]
  | some slot =>
    rw [hslot] at hother
    obtain ⟨entered,emitted,henter⟩ : ∃ entered emitted,
        (st.ticker.leave b).1.enter b slot snap.volume = some (entered,emitted) := by
      obtain ⟨q,emitted,henter,-⟩ :=
        Ticker.enter_silent_iff haccepts (st.ticker.leave b).1 slot snap.volume
      exact ⟨_,emitted,henter⟩
    simp only [proceed, hphase, Ticker.play_enter elapsed hother hslot, henter, Option.map_some]
    refine ⟨_,Emission.taken emitted,rfl,?_,
      fun hnone => absurd hnone (Option.some_ne_none slot),?_⟩
    · rw [Emission.taken_append, List.append_assoc]
    · rintro _ ⟨⟩
      exact ⟨entered,emitted,henter,rfl⟩

theorem sounding_of_orderly {ms : List Message} (h : Message.Orderly ms []) :
    Message.sounding ms = [] :=
  List.perm_nil.mp h.sounding

/-- From an empty queue, whatever the order of requests and phases, as long as the backend takes
every message: the keys that are down are those of the notes that the player counts as sounding, and
nothing sounds without a player. A tick that has copied another slot than the ticker plays lifts all
keys of the old one before it sends anything of the new one, and once the ticker has ended nothing
sounds any more, whatever is requested then. -/
theorem follow_released (slots notes usualGap start : Nat) (volume : Float32) (tempo : Float)
    (available : Bool) (steps : List (Step Float)) (haccepts : ∀ a ∈ steps, a.Accepts)
    {last : Station Float}
    (hrun : follow steps (new (.new slots volume tempo available) (.new usualGap notes start)) =
      some last) :
    List.Perm (Message.sounding last.taken) last.ticker.keys ∧
      (last.ticker.player = none → Message.sounding last.taken = []) ∧
      ∀ b : Backend, (∀ m, b.refusal? m = none) →
        (∀ snap elapsed now, last.phase = .copied snap elapsed now →
          last.ticker.playing ≠ snap.slot.map (·.id) → ∀ clock, ∃ next sent,
            last.proceed b clock = some next ∧
              next.taken = last.taken ++ last.ticker.keys.map Message.lift ++ sent ∧
              Message.sounding (last.taken ++ last.ticker.keys.map Message.lift) = [] ∧
              (snap.slot = none → sent = []) ∧
              ∀ slot ∈ snap.slot, ∃ entered emitted,
                (last.ticker.leave b).1.enter b slot snap.volume = some (entered,emitted) ∧
                  sent = Emission.taken emitted) ∧
        ∀ requests : List (Request Float),
          Message.sounding (requests.foldl request (last.exit b)).taken = [] := by
  have hnew : (new (.new slots volume tempo available) (.new usualGap notes start) :
      Station Float).ticker.Shows [] := Message.orderly_nil
  have hlast := shows_follow haccepts hnew hrun
  refine ⟨hlast.orderly.sounding,fun hplayer => ?_,fun b hb => ⟨?_,fun requests => ?_⟩⟩
  · rw [Ticker.Shows, hplayer] at hlast
    exact sounding_of_orderly hlast
  · intro snap elapsed now hphase hother clock
    obtain ⟨next,sent,hnext,htaken,hnone,hsome⟩ :=
      exists_proceed_of_ne hb hphase hother clock
    have hlifted := hlast.leave hb
    rw [Ticker.taken_leave hb] at hlifted
    exact ⟨next,sent,hnext,htaken,sounding_of_orderly hlifted,hnone,hsome⟩
  · rw [taken_requests]
    exact sounding_of_orderly (hlast.leave hb)

/-- The first of two tunes is skipped while a note of it sounds, and playing is paused: the tick that
has copied the second one lifts the key before it strikes it for the new slot. -/
theorem follow_released_skipped :
    ∃ (last : Station Float) (snap : Snapshot Float) (next : Station Float) (sent : List Message),
      (∀ a ∈ interrupted [.skip, .pause], a.Accepts) ∧
        follow (interrupted [.skip, .pause]) (new (.new 8 1.0 1.0 true) (.new 0 4 0)) =
          some last ∧
        List.Perm (Message.sounding last.taken) [(0, 60)] ∧ snap.slot.map (·.id) = some 2 ∧
        last.proceed .accepting 0 = some next ∧
        next.taken = last.taken ++ [.noteOff 0 60] ++ sent ∧
        Message.sounding (last.taken ++ [.noteOff 0 60]) = [] ∧
        Message.sounding (last.exit .accepting).taken = [] := by
  have haccepts : ∀ a ∈ interrupted [.skip, .pause], a.Accepts := by
    simp [interrupted, Step.Accepts, Backend.accepting]
  have hevaluated :
      (follow (interrupted [.skip, .pause]) (new (.new 8 1.0 1.0 true) (.new 0 4 0))).map
        (fun st => (st.ticker.keys,st.ticker.playing,
          st.phase.paused?.map fun snap => snap.slot.map (·.id))) =
      some ([(0, 60)],some 1,some (some 2)) := by
    decide +kernel
  obtain ⟨last,hrun,hlast⟩ := Option.map_eq_some_iff.mp hevaluated
  simp only [Prod.mk.injEq] at hlast
  obtain ⟨hkeys,hplaying,hcopied⟩ := hlast
  obtain ⟨snap,hsnap,hslot⟩ := Option.map_eq_some_iff.mp hcopied
  obtain ⟨elapsed,now,hphase,-⟩ := phase_of_paused hsnap
  obtain ⟨hperm,-,hticks⟩ := follow_released 8 4 0 0 1.0 1.0 true _ haccepts hrun
  obtain ⟨hproceed,hexit⟩ := hticks .accepting fun _ => rfl
  obtain ⟨next,sent,hnext,htaken,hsilent,-,-⟩ :=
    hproceed snap elapsed now hphase (by rw [hplaying, hslot]; decide) 0
  rw [hkeys] at hperm htaken hsilent
  exact ⟨last,snap,next,sent,haccepts,hrun,hperm,hslot,hnext,htaken,hsilent,hexit []⟩

end Station
end AbcTune
