import AbcTune.Proofs.Playback.Paused
import AbcTune.Proofs.Playback.Position

/-! # A pause is one of the current slot

Requests and phases of a tick put another slot in the place of the current one, or none. Each of
them ends a pause with it, and a request to pause does nothing where there is no current slot. So in
whatever order they come, only a current slot is ever paused, and one that follows it is not.
-/
namespace AbcTune

variable {β : Type}

namespace Scheduler

variable {s next : Scheduler β}

/-- A pause after a change is one of the slot that was current before: it lasts on, or it begins
where there is a slot to be paused. -/
def HandsOnPause (s next : Scheduler β) : Prop :=
  next.paused = true → next.current = s.current ∧ (s.paused = true ∨ s.current.isSome = true)

theorem handsOnPause_of_unpaused (h : next.paused = false) : s.HandsOnPause next :=
  fun hpaused => absurd (h.symm.trans hpaused) Bool.false_ne_true

theorem handsOnPause_of_same (hcurrent : next.current = s.current)
    (hpaused : next.paused = s.paused) : s.HandsOnPause next :=
  fun h => ⟨hcurrent,.inl (hpaused ▸ h)⟩

theorem handsOnPause_pause (s : Scheduler β) : s.HandsOnPause s.pause :=
  fun h => ⟨rfl,Bool.or_eq_true_iff.mp h⟩

variable [Beats β]

theorem handsOnPause_remove (s : Scheduler β) (id : Nat) : s.HandsOnPause (s.remove id).1 := by
  unfold remove
  split
  · exact handsOnPause_of_unpaused rfl
  · split <;> exact handsOnPause_of_same rfl rfl

theorem handsOnPause_snapshot (t : Ticker β) (s : Scheduler β) (now : Nat) (available : Bool) :
    s.HandsOnPause (t.snapshot s now available).2.1 := by
  obtain ⟨gap,next,hcopy,rfl | ⟨-,rfl⟩⟩ := Station.snapshot_cases t s now available
  · rw [hcopy]
    exact handsOnPause_of_same rfl rfl
  · rw [hcopy]
    exact handsOnPause_of_unpaused rfl

theorem handsOnPause_finish (t : Ticker β) (s : Scheduler β) (slot : Slot β) (now : Nat) :
    s.HandsOnPause (t.finish s slot now).2 := by
  unfold Ticker.finish
  split
  · dsimp only
    split <;> exact handsOnPause_of_unpaused rfl
  · exact handsOnPause_of_same rfl rfl

theorem handsOnPause_report (t : Ticker β) (s : Scheduler β) (now : Nat) (report : Report β) :
    s.HandsOnPause (t.report s now report).2 := by
  cases report with
  | nothing => exact handsOnPause_of_same rfl rfl
  | position beats => exact handsOnPause_of_same rfl rfl
  | finished slot => exact handsOnPause_finish t s slot now

/-- A pause has a slot. -/
def PausesCurrent (s : Scheduler β) : Prop := s.paused = true → s.current.isSome = true

omit [Beats β] in
theorem PausesCurrent.change (h : s.PausesCurrent) (hchange : s.HandsOnPause next) :
    next.PausesCurrent := by
  intro hpaused
  obtain ⟨hcurrent,hbefore⟩ := hchange hpaused
  rw [hcurrent]
  exact hbefore.elim h id

theorem not_playing_and_paused (s : Scheduler β) :
    ¬(s.status.playing = true ∧ s.status.paused = true) := by
  rintro ⟨hplaying,hpaused⟩
  have hrunning : (!s.status.paused) = true := (Bool.and_eq_true_iff.mp hplaying).2
  rw [hpaused] at hrunning
  cases hrunning

theorem PausesCurrent.of_idle (h : s.PausesCurrent) (hidle : s.current = none) :
    s.status.playing = false ∧ s.status.paused = false := by
  rw [PausesCurrent, hidle] at h
  refine ⟨?_,Bool.eq_false_iff.mpr fun hpaused => Bool.false_ne_true (h hpaused)⟩
  rw [status, hidle]
  rfl

end Scheduler

namespace Station

variable [Beats β] {st next : Station β}

theorem handsOnPause_request (st : Station β) (r : Request β) :
    st.scheduler.HandsOnPause (st.request r).scheduler := by
  cases r with
  | enqueue tune options =>
    rcases enqueue_cases st tune options with heq | heq <;> rw [request, heq] <;>
      exact Scheduler.handsOnPause_of_same rfl rfl
  | stop => exact Scheduler.handsOnPause_of_unpaused rfl
  | pause => exact st.scheduler.handsOnPause_pause
  | resume => exact Scheduler.handsOnPause_of_unpaused rfl
  | skip => exact Scheduler.handsOnPause_of_unpaused rfl
  | remove id => exact st.scheduler.handsOnPause_remove id
  | clear => exact Scheduler.handsOnPause_of_same rfl rfl
  | setVolume volume =>
    simp only [request, Scheduler.setVolume]
    split <;> exact Scheduler.handsOnPause_of_same rfl rfl
  | setTempo tempo =>
    simp only [request, Scheduler.setTempo]
    split <;> exact Scheduler.handsOnPause_of_same rfl rfl
  | shutDown => exact Scheduler.handsOnPause_of_same rfl rfl

theorem handsOnPause_proceed {b : Backend} {clock : Nat} (hnext : st.proceed b clock = some next) :
    st.scheduler.HandsOnPause next.scheduler := by
  unfold proceed at hnext
  split at hnext
  · cases Option.some.inj hnext
    exact Scheduler.handsOnPause_snapshot _ _ _ _
  · -- playing does not touch the shared state
    obtain ⟨played,-,rfl⟩ := Option.map_eq_some_iff.mp hnext
    exact Scheduler.handsOnPause_of_same rfl rfl
  · cases Option.some.inj hnext
    exact Scheduler.handsOnPause_report _ _ _ _

/-- Whatever a step does, a pause after it is one of the slot that was current before. -/
theorem handsOnPause_step {a : Step β} (hnext : st.step a = some next) :
    st.scheduler.HandsOnPause next.scheduler := by
  cases a with
  | request r =>
    cases Option.some.inj hnext
    exact handsOnPause_request st r
  | proceed b clock => exact handsOnPause_proceed hnext

theorem pausesCurrent_follow (h : st.scheduler.PausesCurrent) {steps : List (Step β)}
    {last : Station β} (hrun : follow steps st = some last) : last.scheduler.PausesCurrent :=
  follow_keeps (P := fun mid => mid.scheduler.PausesCurrent)
    (fun h hnext => h.change (handsOnPause_step hnext)) h hrun

/-- From an empty queue, whatever the order of requests and phases, playing is only paused where
there is a current slot, and never in a state where a step has just put another slot, or none, in
the place of the current one. What is told of it is never both playing and paused, and neither of
them without a current slot. -/
theorem follow_pausesCurrent (slots notes usualGap start : Nat) (volume : Float32) (tempo : β)
    (available : Bool) (steps : List (Step β)) {last : Station β}
    (hrun : follow steps (new (.new slots volume tempo available) (.new usualGap notes start)) =
      some last) :
    (last.scheduler.paused = true → last.scheduler.current.isSome = true) ∧
      (∀ a next, last.step a = some next → next.scheduler.current ≠ last.scheduler.current →
        next.scheduler.paused = false) ∧
      ¬(last.scheduler.status.playing = true ∧ last.scheduler.status.paused = true) ∧
      (last.scheduler.status.current = none →
        last.scheduler.status.playing = false ∧ last.scheduler.status.paused = false) := by
  have hnew : (Scheduler.new slots volume tempo available).PausesCurrent :=
    fun hpaused => (Bool.false_ne_true hpaused).elim
  have hlast : last.scheduler.PausesCurrent := pausesCurrent_follow hnew hrun
  refine ⟨hlast,fun a next hnext hother => ?_,last.scheduler.not_playing_and_paused,
    fun hnone => hlast.of_idle (Option.map_eq_none_iff.mp hnone)⟩
  exact Bool.eq_false_iff.mpr fun hpaused => hother (handsOnPause_step hnext hpaused).1

/-- The first of two tunes plays and is paused; then it is skipped. -/
theorem follow_pausesCurrent_skipped :
    ∃ (st next : Station Float) (slot : Slot Float),
      follow (interrupted [.pause]) (new (.new 8 1.0 1.0 true) (.new 0 4 0)) = some st ∧
        st.scheduler.paused = true ∧ st.scheduler.current.isSome = true ∧
        st.scheduler.status.playing = false ∧ st.step (.request .skip) = some next ∧
        next.scheduler.current = some slot ∧ slot.id = 2 ∧ next.scheduler.paused = false := by
  have hevaluated :
      (follow (interrupted [.pause]) (new (.new 8 1.0 1.0 true) (.new 0 4 0))).map (fun st =>
        (st.scheduler.paused,st.scheduler.current.map Slot.id,
          (st.request .skip).scheduler.current.map Slot.id)) = some (true,some 1,some 2) := by
    decide +kernel
  obtain ⟨st,hrun,hst⟩ := Option.map_eq_some_iff.mp hevaluated
  obtain ⟨hpaused,hslots⟩ := Prod.mk.inj hst
  obtain ⟨hfirst,hsecond⟩ := Prod.mk.inj hslots
  obtain ⟨slot,hslot,hid⟩ := Option.map_eq_some_iff.mp hsecond
  obtain ⟨hcurrent,hturn,hboth,-⟩ := follow_pausesCurrent 8 4 0 0 1.0 1.0 true _ hrun
  have hplaying : st.scheduler.status.playing = false :=
    Bool.eq_false_iff.mpr fun hplaying => hboth ⟨hplaying,hpaused⟩
  have hother : (st.request .skip).scheduler.current ≠ st.scheduler.current := by
    intro heq
    rw [heq, hfirst] at hsecond
    cases hsecond
  exact ⟨st,st.request .skip,slot,hrun,hpaused,hcurrent hpaused,hplaying,rfl,hslot,hid,
    hturn (.request .skip) _ rfl hother⟩

end Station
end AbcTune
