import AbcTune.Proofs.Playback.Moves
import AbcTune.Proofs.Playback.Paused

/-! # Tunes played to their end

A step of a player handles the next event, and then the note-on of that event is the only one that
it sends, or it handles none and only releases notes. So the note-ons that were sent are those of
the events handled, in their order, and a player that has come to the end of its tune has sent the
note-ons of all events, whatever was struck again or had to make room on the way.
-/
namespace AbcTune

/-- What was sent, whether it was taken or not. -/
def Emission.message? : Emission → Option Message
  | .sent m _ => some m
  | .crowded _ => none

/-- The note-ons that were sent. -/
def Emission.noteOns (es : List Emission) : List Message :=
  (es.filterMap Emission.message?).filter Message.isNoteOn

theorem Emission.noteOns_append (es fs : List Emission) :
    noteOns (es ++ fs) = noteOns es ++ noteOns fs := by
  rw [noteOns, List.filterMap_append, List.filter_append]
  rfl

namespace Player

section Steps

variable {β : Type} [Beats β] (b : Backend) (volume : Float32)
variable {p q : Player β} {limit : β} {sent : List Emission}

/-- The note-on of an event, unless its velocity comes to nothing. -/
def attack? (volume : Float32) (event : Note β) : Option Message :=
  if dispatchVelocity event.velocity volume = 0 then none
  else some (.noteOn event.channel event.pitch (dispatchVelocity event.velocity volume))

omit [Beats β] in
theorem noteOns_offs (ns : List (ActiveNote β)) : Emission.noteOns (ns.map (off b)) = [] := by
  induction ns with
  | nil => rfl
  | cons n ns ih => exact ih

omit [Beats β] in
theorem noteOns_push (n : ActiveNote β) : Emission.noteOns (p.push b n).2 = [] := by
  unfold push
  split
  · rfl
  · split <;> rfl

theorem noteOns_sound (event : Note β) :
    Emission.noteOns (p.sound b volume event).2 = (attack? volume event).toList := by
  have hreleased : Emission.noteOns (p.release b event).2 = [] := by
    rw [release, Option.toList_map]
    exact noteOns_offs b _
  unfold sound attack?
  dsimp only
  split
  · rfl
  · cases b.refusal? _ with
    | some refusal =>
      rw [Emission.noteOns_append, hreleased]
      rfl
    | none =>
      rw [Emission.noteOns_append, hreleased]
      change _ :: Emission.noteOns (Player.push _ b _).2 = _
      rw [noteOns_push]
      rfl

/-- A step handles the next event and sends its note-on at most, or handles none and sends none. -/
theorem exists_handled_of_step (h : p.step b volume limit = some (q,sent)) :
    ∃ event : Option (Note β), p.upcoming = event.toList ++ q.upcoming ∧
      Emission.noteOns sent = (event.bind (attack? volume)).toList := by
  rcases step_cases b volume h with ⟨beat,-,-,-,hq⟩ | ⟨event,rest,hup,-,hq⟩
  · cases hq
    exact ⟨none,rfl,noteOns_offs b _⟩
  · have hupcoming := sound_upcoming b volume (p := { p with upcoming := rest }) event
    have hnoteOns := noteOns_sound b volume (p := { p with upcoming := rest }) event
    rw [hq] at hupcoming hnoteOns
    exact ⟨some event,by rw [hup, hupcoming]; rfl,hnoteOns⟩

end Steps

variable {b : Backend} {volume : Float32} {p q : Player Rat} {limit : Rat} {sent : List Emission}
variable {slot : Slot Rat}

/-- What is sent up to a limit, and what is still to come then, are the note-ons of all that was to
come before. -/
theorem Plays.noteOns (h : Plays b volume limit p q sent) :
    Emission.noteOns sent ++ q.upcoming.filterMap (attack? volume) =
      p.upcoming.filterMap (attack? volume) := by
  induction h with
  | stuck _ => rfl
  | step hstep _ ih =>
    obtain ⟨event,hup,hnoteOns⟩ := exists_handled_of_step b volume hstep
    rw [Emission.noteOns_append, List.append_assoc, ih, hup, List.filterMap_append, hnoteOns]
    cases event with
    | none => rfl
    | some event => cases hattack : attack? volume event <;> simp [hattack]

/-- A new player that is moved over its whole tune sends and releases all of it. -/
theorem advance_new_finished (capacity : Nat) (htimed : ∀ n ∈ slot.tune.events, 0 ≤ n.duration)
    {beats : Rat} (hend : slot.tune.durationBeats ≤ beats)
    (hmove : (new slot capacity).advance b beats volume = some (p,sent)) :
    p.isFinished = true ∧ p.active = [] ∧
      Emission.noteOns sent = slot.tune.events.filterMap (attack? volume) := by
  obtain ⟨hposition,q,hplays,⟨hup,hactive⟩,hp⟩ := plays_of_whole b volume htimed hend hmove
  have htune : q.tune = slot.tune := by
    rw [hplays.frame b volume]
    rfl
  have hnoteOns := hplays.noteOns
  rw [hup, List.filterMap_nil, List.append_nil] at hnoteOns
  refine ⟨?_,by rw [hp, hactive],hnoteOns⟩
  have hslack := slack_pos
  have hreached : slot.tune.durationBeats ≤ p.position + beatSlack := by linarith
  rw [hp]
  simp only [isFinished, Bool.and_eq_true, List.isEmpty_iff, decide_eq_true_eq]
  exact ⟨⟨hup,hactive⟩,htune ▸ hreached⟩

/-- A new player that is moved over its whole tune, in any number of steps but none, is finished
then. Nothing sounds any more, and the note-ons of all events that are heard were sent, each once
and in the order of the events. Where there are no events it needs no step for that. -/
theorem calls_finished (haccepts : ∀ m, b.refusal? m = none) (slot : Slot Rat) (capacity : Nat)
    (volume : Float32) {steps : List Rat} (htimed : ∀ n ∈ slot.tune.events, 0 ≤ n.duration)
    (hsteps : ∀ x ∈ steps, 0 ≤ x) (hend : slot.tune.durationBeats ≤ steps.sum)
    (hmoved : steps = [] → slot.tune.events = []) :
    ∃ p sent, (new slot capacity).calls b (steps.map (.advance · volume)) = some (p,sent) ∧
      p.isFinished = true ∧ p.active = [] ∧ Message.sounding (Emission.taken sent) = [] ∧
      Emission.noteOns sent = slot.tune.events.filterMap (attack? volume) := by
  cases steps with
  | nil =>
    have hslack := slack_pos
    have hevents := hmoved rfl
    have hduration : slot.tune.durationBeats ≤ (new slot capacity).position + beatSlack := by
      rw [List.sum_nil] at hend
      rw [position_new]
      linarith
    refine ⟨new slot capacity,[],rfl,?_,rfl,rfl,by rw [hevents]; rfl⟩
    simp only [isFinished, Bool.and_eq_true, List.isEmpty_iff, decide_eq_true_eq]
    exact ⟨⟨hevents,rfl⟩,hduration⟩
  | cons x xs =>
    obtain ⟨p,sent,hmove⟩ := exists_advance b volume (new slot capacity) (x :: xs).sum
    obtain ⟨hfinished,hactive,hnoteOns⟩ :=
      advance_new_finished capacity htimed hend hmove
    have hcalls := calls_moves b volume x xs hsteps (new slot capacity)
    rw [hmove] at hcalls
    have hsounding := (calls_sounding haccepts slot capacity _ hcalls).1
    rw [keys, hactive, List.map_nil] at hsounding
    exact ⟨p,sent,hcalls,hfinished,hactive,List.perm_nil.mp hsounding,hnoteOns⟩

/-- Where there is room for one note only, none of three is left out. -/
theorem calls_finished_overlapping :
    ∃ p sent,
      (new (overlapping Rat) 1).calls .accepting ([1/2, 0, 3, 1/2].map (.advance · 1)) =
          some (p,sent) ∧
        p.isFinished = true ∧ Message.sounding (Emission.taken sent) = [] ∧
        Emission.noteOns sent = [.noteOn 0 60 80, .noteOn 0 60 80, .noteOn 0 64 80] := by
  have hlengths : ∀ n ∈ (overlapping Rat).tune.events, 0 ≤ n.duration := by decide +kernel
  have hsteps : ∀ x ∈ ([1/2, 0, 3, 1/2] : List Rat), 0 ≤ x := by norm_num
  have hend : (overlapping Rat).tune.durationBeats ≤ ([1/2, 0, 3, 1/2] : List Rat).sum := by
    decide +kernel
  obtain ⟨p,sent,hcalls,hfinished,-,hsounding,hnoteOns⟩ :=
    calls_finished (b := .accepting) (fun _ => rfl) (overlapping Rat) 1 1 hlengths hsteps hend
      (by simp)
  have hheard : (overlapping Rat).tune.events.filterMap (attack? 1) =
      [.noteOn 0 60 80, .noteOn 0 60 80, .noteOn 0 64 80] := by
    decide +kernel
  exact ⟨p,sent,hcalls,hfinished,hsounding,hnoteOns.trans hheard⟩

/-- A note at the first beat that takes no time. -/
def momentary : Slot Rat where
  id := 1
  tune := { Tune.empty (.initial 1) with events := [⟨60,80,0,0,0,"1",[],false,none⟩] }
  options := .once

/-- No steps go over the whole of a tune that takes no time, and yet its note is still to come. -/
theorem not_isFinished_momentary :
    momentary.tune.events.Pairwise (·.start ≤ ·.start) ∧
      (∀ n ∈ momentary.tune.events, 0 ≤ n.duration) ∧
      (∀ x ∈ ([] : List Rat), 0 ≤ x) ∧ momentary.tune.durationBeats ≤ ([] : List Rat).sum ∧
      ∀ p sent,
        (new momentary 1).calls .accepting (([] : List Rat).map (.advance · 1)) = some (p,sent) →
          p.isFinished = false ∧
            Emission.noteOns sent ≠ momentary.tune.events.filterMap (attack? 1) := by
  refine ⟨by decide +kernel,by decide +kernel,List.forall_mem_nil _,by decide +kernel,?_⟩
  intro p sent hcalls
  cases hcalls
  exact ⟨rfl,by decide +kernel⟩

end Player
end AbcTune
