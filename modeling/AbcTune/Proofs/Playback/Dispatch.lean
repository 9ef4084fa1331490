import AbcTune.Proofs.Playback.Complete

/-! # Releases before attacks

What a player does on its way is a list of turns, each of which handles the next event or releases
the notes that end next. Where the events are in order, an event has its turn only when all notes
that still sound end later than it starts, and notes are released as due only when the events that
start before their ends, by more than the slack, have had their turn.
-/
namespace AbcTune.Player

/-- One step of a player. -/
structure Turn where
  before : Player Rat
  volume : Float32
  /-- The event that it handles, unless it releases notes. -/
  event : Option (Note Rat)
  sent : List Emission

/-- The turns of a player on the way to another one. The cursor is moved between them. -/
inductive Takes (b : Backend) : Player Rat → List Turn → Player Rat → Prop where
  | done (p : Player Rat) : Takes b p [] p
  | move {p q : Player Rat} {turns : List Turn} (position : Rat)
      (hrest : Takes b { p with position := position } turns q) : Takes b p turns q
  | step {p q r : Player Rat} {volume : Float32} {limit : Rat} {sent : List Emission}
      {event : Option (Note Rat)} {turns : List Turn}
      (hstep : p.step b volume limit = some (q,sent))
      (hevent : p.upcoming = event.toList ++ q.upcoming) (hrest : Takes b q turns r) :
      Takes b p (⟨p,volume,event,sent⟩ :: turns) r

/-- A turn in the order of time. Either it releases the notes that end next, as no event is still to
come that starts before their ends by more than the slack; or it handles the next event, while all
notes that sound end later than the event starts. -/
inductive Turn.InOrder (b : Backend) (t : Turn) : Prop where
  | release (beat : Rat) (hevent : t.event = none) (hnext : t.before.nextOff = some beat)
      (hsent : t.sent = (t.before.active.filter (endsBy beat)).map (off b))
      (hhandled : ∀ n ∈ t.before.active.filter (endsBy beat), ∀ e ∈ t.before.upcoming,
        n.stop - beatSlack ≤ e.start)
  | attack (event : Note Rat) (rest : List (Note Rat)) (hevent : t.event = some event)
      (hnext : t.before.upcoming = event :: rest)
      (hsent : t.sent = (sound { t.before with upcoming := rest } b t.volume event).2)
      (hlater : ∀ n ∈ t.before.active, event.start < n.stop)

variable {b : Backend} {volume : Float32} {p q r : Player Rat} {limit : Rat}
variable {sent : List Emission} {turns more : List Turn}

/-! ## Single turns -/

/-- Where a release comes first, no event in order starts before it. -/
theorem le_start_of_offFirst (hsorted : p.upcoming.Pairwise (·.start ≤ ·.start)) {beat : Rat}
    (hnext : p.nextOff = some beat) (hfirst : offFirst p.nextOff p.nextOn = true) :
    ∀ e ∈ p.upcoming, beat ≤ e.start := by
  intro e he
  cases hup : p.upcoming with
  | nil => simp [hup] at he
  | cons first rest =>
    rw [hnext, nextOn, hup] at hfirst
    have hbeat : beat ≤ first.start := of_decide_eq_true hfirst
    rw [hup] at hsorted he
    rcases List.mem_cons.mp he with rfl | he
    · exact hbeat
    · exact hbeat.trans ((List.pairwise_cons.mp hsorted).1 e he)

/-- Where an event comes first, all notes that sound end later than it starts. -/
theorem lt_stop_of_onFirst {event : Note Rat} {rest : List (Note Rat)}
    (hup : p.upcoming = event :: rest) (hfirst : offFirst p.nextOff p.nextOn = false) :
    ∀ n ∈ p.active, event.start < n.stop := by
  refine isBeyond_nextOff.mp ?_
  rw [nextOn, hup] at hfirst
  cases hnext : p.nextOff with
  | none => rfl
  | some beat =>
    rw [hnext] at hfirst
    exact decide_eq_true (not_le.mp (of_decide_eq_false hfirst))

theorem inOrder_of_step {event : Option (Note Rat)}
    (hsorted : p.upcoming.Pairwise (·.start ≤ ·.start))
    (hstep : p.step b volume limit = some (q,sent))
    (hevent : p.upcoming = event.toList ++ q.upcoming) :
    Turn.InOrder b ⟨p,volume,event,sent⟩ := by
  rcases step_cases b volume hstep with ⟨beat,hnext,-,hfirst,hq⟩ | ⟨first,rest,hup,hfirst,hq⟩
  · cases hq
    have hnone : event = none := by simpa using hevent
    refine .release beat hnone hnext rfl fun n hn e he => ?_
    have hends : n.stop ≤ beat + beatSlack := of_decide_eq_true (List.mem_filter.mp hn).2
    have hstart := le_start_of_offFirst hsorted hnext hfirst e he
    linarith
  · have hupcoming := sound_upcoming b volume (p := { p with upcoming := rest }) first
    rw [hq] at hupcoming
    have hsome : event = some first := by
      rw [hup, hupcoming] at hevent
      cases event with
      | none => exact absurd hevent (by simp)
      | some event => exact congrArg some (List.cons.inj hevent).1.symm
    exact .attack first rest hsome hup (by rw [hq]) (lt_stop_of_onFirst hup hfirst)

/-! ## Turns one after another -/

theorem Takes.trans (h : Takes b p turns q) (hq : Takes b q more r) :
    Takes b p (turns ++ more) r := by
  induction h with
  | done p => exact hq
  | move position _ ih => exact .move position (ih hq)
  | step hstep hevent _ ih => exact .step hstep hevent (ih hq)

/-- The events that had a turn, and those that are still to come, are all that were to come. -/
theorem Takes.handled (h : Takes b p turns q) :
    turns.filterMap Turn.event ++ q.upcoming = p.upcoming := by
  induction h with
  | done p => rfl
  | move position _ ih => exact ih
  | @step p q r volume limit sent event turns hstep hevent _ ih =>
    rw [hevent, ← ih]
    cases event <;> rfl

/-- Each turn is in order, and the events before it are those that had a turn before it. -/
theorem Takes.inOrder (h : Takes b p turns q) (hsorted : p.upcoming.Pairwise (·.start ≤ ·.start))
    {earlier later : List Turn} {t : Turn} (hturns : turns = earlier ++ t :: later) :
    earlier.filterMap Turn.event ++ t.before.upcoming = p.upcoming ∧ t.InOrder b := by
  induction h generalizing earlier with
  | done p => simp at hturns
  | move position _ ih => exact ih hsorted hturns
  | @step p q r volume limit sent event turns hstep hevent _ ih =>
    cases earlier with
    | nil =>
      cases hturns
      exact ⟨rfl,inOrder_of_step hsorted hstep hevent⟩
    | cons first earlier =>
      cases hturns
      have hrest : q.upcoming.Pairwise (·.start ≤ ·.start) := by
        rw [hevent] at hsorted
        exact (List.pairwise_append.mp hsorted).2.1
      obtain ⟨hhandled,hinOrder⟩ := ih hrest rfl
      refine ⟨?_,hinOrder⟩
      rw [hevent, ← hhandled]
      cases event <;> rfl

/-- Turns in order send the note-ons of the events that they handle. -/
theorem noteOns_of_inOrder (h : ∀ t ∈ turns, t.InOrder b) :
    Emission.noteOns (turns.flatMap Turn.sent) =
      turns.filterMap fun t => t.event.bind (attack? t.volume) := by
  induction turns with
  | nil => rfl
  | cons t rest ih =>
    obtain ⟨ht,hrest⟩ := List.forall_mem_cons.mp h
    rw [List.flatMap_cons, Emission.noteOns_append, ih hrest, List.filterMap_cons]
    cases ht with
    | release beat hevent _ hsent _ =>
      rw [hsent, noteOns_offs, hevent]
      rfl
    | attack event upcoming hevent _ hsent _ =>
      rw [hsent, noteOns_sound, hevent]
      cases hattack : attack? t.volume event <;> simp [hattack]

/-! ## Moves -/

theorem takes_of_plays (h : Plays b volume limit p q sent) :
    ∃ turns, Takes b p turns q ∧ turns.flatMap Turn.sent = sent := by
  induction h with
  | stuck _ => exact ⟨[],.done _,rfl⟩
  | step hstep _ ih =>
    obtain ⟨turns,hrest,rfl⟩ := ih
    obtain ⟨event,hevent,-⟩ := exists_handled_of_step b volume hstep
    exact ⟨_,.step hstep hevent hrest,rfl⟩

theorem takes_of_advance {beats : Rat} (h : p.advance b beats volume = some (q,sent)) :
    ∃ turns, Takes b p turns q ∧ turns.flatMap Turn.sent = sent := by
  obtain ⟨-,r,hplays,hq⟩ := plays_of_advance b volume h
  obtain ⟨turns,hturns,hsent⟩ := takes_of_plays hplays
  have hmove : Takes b r [] q := .move q.position (hq ▸ .done _)
  refine ⟨turns,?_,hsent⟩
  have hboth := hturns.trans hmove
  rwa [List.append_nil] at hboth

/-- Moves always come to an end, and what they send are turns one after another. -/
theorem exists_takes (b : Backend) (moves : List (Rat × Float32)) (p : Player Rat) :
    ∃ q turns, p.calls b (moves.map fun m => .advance m.1 m.2) =
      some (q,turns.flatMap Turn.sent) ∧ Takes b p turns q := by
  induction moves generalizing p with
  | nil => exact ⟨p,[],rfl,.done p⟩
  | cons m rest ih =>
    obtain ⟨q,sent,hmove⟩ := exists_advance b m.2 p m.1
    obtain ⟨turns,hturns,rfl⟩ := takes_of_advance hmove
    obtain ⟨r,more,hcalls,hmore⟩ := ih q
    refine ⟨r,turns ++ more,?_,hturns.trans hmore⟩
    rw [List.map_cons, calls, call, hmove, Option.bind_some]
    dsimp only
    rw [hcalls, Option.map_some, List.flatMap_append]

/-- Whatever moves a new player is asked for, all that it sends is sent in turns in the order of
time. When an event has its turn, every note that sounds ends later than the event starts, also the
one whose key is struck again. When notes are released because they are due, all events that start
before the end of one of them, by more than the slack, have had their turn. The events have their
turns in the order of the tune, so their note-ons are sent in that order. -/
theorem calls_inOrder (b : Backend) (slot : Slot Rat) (capacity : Nat)
    (moves : List (Rat × Float32))
    (hsorted : slot.tune.events.Pairwise (·.start ≤ ·.start)) :
    ∃ p turns,
      (new slot capacity).calls b (moves.map fun m => .advance m.1 m.2) =
          some (p,turns.flatMap Turn.sent) ∧
        Takes b (new slot capacity) turns p ∧
        (∀ earlier t later, turns = earlier ++ t :: later →
          earlier.filterMap Turn.event ++ t.before.upcoming = slot.tune.events ∧ t.InOrder b) ∧
        turns.filterMap Turn.event ++ p.upcoming = slot.tune.events ∧
        Emission.noteOns (turns.flatMap Turn.sent) =
          turns.filterMap fun t => t.event.bind (attack? t.volume) := by
  obtain ⟨p,turns,hcalls,hturns⟩ := exists_takes b moves (new slot capacity)
  have hall : ∀ t ∈ turns, t.InOrder b := by
    intro t ht
    obtain ⟨earlier,later,hsplit⟩ := List.append_of_mem ht
    exact (hturns.inOrder hsorted hsplit).2
  exact ⟨p,turns,hcalls,hturns,fun _ _ _ hsplit => hturns.inOrder hsorted hsplit,hturns.handled,
    noteOns_of_inOrder hall⟩

/-- A key is struck again at the beat where it is lifted, and a note with it that takes no time. -/
def restruck : Slot Rat where
  id := 1
  tune :=
    { Tune.empty (.initial 1) with
      events :=
        [⟨60,80,0,1,0,"1",[],false,none⟩, ⟨60,80,1,1,0,"1",[],false,none⟩,
          ⟨64,80,1,0,0,"1",[],false,none⟩, ⟨67,80,2,1,0,"1",[],false,none⟩] }
  options := .once

/-- The key is lifted before it is struck again, and the note that takes no time is struck before it
is released. -/
theorem calls_inOrder_restruck :
    ∃ p turns,
      (new restruck 2).calls .accepting ([(1/2,1), (2,1)].map fun m => .advance m.1 m.2) =
          some (p,turns.flatMap Turn.sent) ∧
        Takes .accepting (new restruck 2) turns p ∧ (∀ t ∈ turns, t.InOrder .accepting) ∧
        Emission.taken (turns.flatMap Turn.sent) =
          [.noteOn 0 60 80, .noteOff 0 60, .noteOn 0 60 80, .noteOn 0 64 80, .noteOff 0 64,
            .noteOff 0 60, .noteOn 0 67 80] := by
  obtain ⟨p,turns,hcalls,hturns,hinOrder,-,-⟩ :=
    calls_inOrder .accepting restruck 2 [(1/2,1), (2,1)] (by decide +kernel)
  refine ⟨p,turns,hcalls,hturns,fun t ht => ?_,?_⟩
  · obtain ⟨earlier,later,hsplit⟩ := List.append_of_mem ht
    exact (hinOrder earlier t later hsplit).2
  · have hevaluated :
        ((new restruck 2).calls .accepting
          ([(1/2,1), (2,1)].map fun m => .advance m.1 m.2)).map
            (fun result => Emission.taken result.2) =
          some [.noteOn 0 60 80, .noteOff 0 60, .noteOn 0 60 80, .noteOn 0 64 80, .noteOff 0 64,
            .noteOff 0 60, .noteOn 0 67 80] := by
      decide +kernel
    rw [hcalls] at hevaluated
    exact Option.some.inj hevaluated

end AbcTune.Player
