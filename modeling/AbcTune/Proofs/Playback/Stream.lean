import Mathlib.Tactic.Linarith
import AbcTune.Proofs.Beat.Exact
import AbcTune.Proofs.Playback.Steps

/-! # The stream of one tune

On exact beats what a player does next depends on its notes alone: the limit of a move only says
how far it goes. So a tune that is played in many moves sends what it sends in one, and the
messages of any move are the start of one stream.
-/
namespace AbcTune.Player

variable (b : Backend) (volume : Float32)
variable {p q r : Player Rat} {limit later : Rat} {sent more : List Emission}

theorem slack_pos : (0 : Rat) < beatSlack := by
  unfold beatSlack
  decide +kernel

/-! ## What falls due -/

theorem isBeyond_earliest (x y : Option Rat) :
    isBeyond limit (earliest x y) = true ↔ isBeyond limit x = true ∧ isBeyond limit y = true := by
  cases x with
  | none => cases y <;> simp [earliest, isBeyond]
  | some x =>
    cases y with
    | none => simp [earliest, isBeyond]
    | some y => simp [earliest, isBeyond, Beats.earlier_eq_min]

theorem isBeyond_mono {due : Option Rat} (h : limit ≤ later) (hdue : isBeyond later due = true) :
    isBeyond limit due = true := by
  cases due with
  | none => rfl
  | some due => exact decide_eq_true (h.trans_lt (of_decide_eq_true hdue))

private theorem foldl_earliest (active : List (ActiveNote Rat)) (due : Option Rat) :
    isBeyond limit (active.foldl (fun due n => earliest due (some n.stop)) due) = true ↔
      isBeyond limit due = true ∧ ∀ n ∈ active, limit < n.stop := by
  induction active generalizing due with
  | nil => simp
  | cons n active ih =>
    rw [List.foldl_cons, ih, isBeyond_earliest]
    simp [isBeyond, and_assoc]

theorem isBeyond_nextOff :
    isBeyond limit p.nextOff = true ↔ ∀ n ∈ p.active, limit < n.stop := by
  refine (foldl_earliest p.active none).trans ?_
  simp [isBeyond]

private theorem foldl_earliest_mem (active : List (ActiveNote Rat)) (due : Option Rat) {beat : Rat}
    (h : active.foldl (fun due n => earliest due (some n.stop)) due = some beat) :
    due = some beat ∨ ∃ n ∈ active, n.stop = beat := by
  induction active generalizing due with
  | nil => exact Or.inl h
  | cons n active ih =>
    rcases ih _ h with hn | ⟨m,hm,hstop⟩
    · cases due with
      | none => exact Or.inr ⟨n,List.mem_cons_self,by simpa [earliest] using hn⟩
      | some x =>
        simp only [earliest, Beats.earlier_eq_min, Option.some.injEq] at hn
        rcases min_choice x n.stop with hx | hx
        · exact Or.inl (by rw [← hn, hx])
        · exact Or.inr ⟨n,List.mem_cons_self,by rw [← hn, hx]⟩
    · exact Or.inr ⟨m,List.mem_cons_of_mem _ hm,hstop⟩

theorem exists_stop_eq_nextOff {beat : Rat} (h : p.nextOff = some beat) :
    ∃ n ∈ p.active, n.stop = beat := by
  rcases foldl_earliest_mem p.active none h with hn | hn
  · cases hn
  · exact hn

theorem isBeyond_nextOn :
    isBeyond limit p.nextOn = true ↔ ∀ n ∈ p.upcoming.head?, limit < n.start := by
  unfold nextOn
  cases p.upcoming with
  | nil => simp [isBeyond, Beats.latest]
  | cons n rest => simp [isBeyond]

/-! ## Single steps -/

/-- A step fails only when nothing is due, never for want of an event to send. -/
theorem step_eq_none_iff : p.step b volume limit = none ↔
    (∀ n ∈ p.active, limit < n.stop) ∧ ∀ n ∈ p.upcoming.head?, limit < n.start := by
  rw [← isBeyond_nextOff, ← isBeyond_nextOn, ← isBeyond_earliest]
  unfold step
  split
  · next h => simp [h]
  · next h =>
    simp only [h]
    split
    · simp
    · next hoff =>
      cases hup : p.upcoming with
      | nil =>
        have hon : p.nextOn = none := by rw [nextOn, hup]; rfl
        rw [hon] at hoff
        cases hn : p.nextOff <;> simp [offFirst] at hoff
      | cons n rest => simp

/-- A farther limit does not change a step. -/
theorem step_mono (h : limit ≤ later) {next : Player Rat × List Emission}
    (hstep : p.step b volume limit = some next) : p.step b volume later = some next := by
  have hdue : ¬isBeyond later (earliest p.nextOff p.nextOn) = true := by
    intro hlater
    rw [step, if_pos (isBeyond_mono h hlater)] at hstep
    cases hstep
  unfold step at hstep ⊢
  rw [if_neg hdue]
  split at hstep
  · cases hstep
  · exact hstep

/-- A note ends where the next of the sounding notes ends. -/
theorem exists_endsBy_nextOff {beat : Rat} (h : p.nextOff = some beat) :
    ∃ n ∈ p.active, endsBy beat n = true := by
  obtain ⟨n,hn,hstop⟩ := exists_stop_eq_nextOff h
  have hslack := slack_pos
  exact ⟨n,hn,decide_eq_true (by linarith)⟩

/-! ## Runs -/

/-- Steps up to a limit, until nothing is due any more. -/
inductive Plays (limit : Rat) : Player Rat → Player Rat → List Emission → Prop where
  | stuck {p : Player Rat} (h : p.step b volume limit = none) : Plays limit p p []
  | step {p q r : Player Rat} {sent more : List Emission}
      (h : p.step b volume limit = some (q,sent)) (hrest : Plays limit q r more) :
      Plays limit p r (sent ++ more)

theorem plays_of_run {fuel : Nat} (h : run b volume limit fuel p = some (q,sent)) :
    Plays b volume limit p q sent := by
  induction fuel generalizing p sent with
  | zero => cases h
  | succ fuel ih =>
    rw [run] at h
    cases hstep : p.step b volume limit with
    | none =>
      rw [hstep] at h
      cases h
      exact .stuck hstep
    | some next =>
      rw [hstep] at h
      obtain ⟨⟨r,more⟩,hrest,heq⟩ := Option.map_eq_some_iff.mp h
      cases heq
      exact .step hstep (ih hrest)

/-- A player with as many tries as it has notes always comes to rest. -/
theorem exists_run (limit : Rat) {fuel : Nat} (h : p.mostSteps < fuel) :
    ∃ q sent, run b volume limit fuel p = some (q,sent) :=
  exists_run_of_usesUp b volume (fun _ _ _ hstep =>
    usesUp_of_step b volume hstep fun _ hoff _ _ => exists_endsBy_nextOff hoff) h

/-- A run to a farther limit goes on where a nearer one came to rest. -/
theorem Plays.trans (hle : limit ≤ later) (h : Plays b volume limit p q sent)
    (hq : Plays b volume later q r more) : Plays b volume later p r (sent ++ more) := by
  induction h with
  | stuck _ => exact hq
  | step hstep _ ih =>
    rw [List.append_assoc]
    exact .step (step_mono b volume hle hstep) (ih hq)

theorem Plays.unique {q' : Player Rat} {sent' : List Emission} (h : Plays b volume limit p q sent)
    (h' : Plays b volume limit p q' sent') : q = q' ∧ sent = sent' := by
  induction h generalizing sent' with
  | stuck hstep =>
    cases h' with
    | stuck _ => exact ⟨rfl,rfl⟩
    | step hstep' _ => rw [hstep] at hstep'; cases hstep'
  | step hstep _ ih =>
    cases h' with
    | stuck hstep' => rw [hstep] at hstep'; cases hstep'
    | step hstep' hrest' =>
      rw [hstep] at hstep'
      cases hstep'
      obtain ⟨rfl,rfl⟩ := ih hrest'
      exact ⟨rfl,rfl⟩

theorem Plays.frame (h : Plays b volume limit p q sent) :
    q = { p with upcoming := q.upcoming, active := q.active } := by
  induction h with
  | stuck _ => rfl
  | step hstep _ ih => rw [ih, step_frame b volume hstep]

theorem Plays.slotId (h : Plays b volume limit p q sent) : q.slotId = p.slotId := by
  rw [h.frame b volume]

/-! ## The cursor is not looked at -/

theorem push_position (n : ActiveNote Rat) (x : Rat) :
    push { p with position := x } b n = ({ (p.push b n).1 with position := x },(p.push b n).2) := by
  obtain ⟨slotId,tune,capacity,upcoming,position,active⟩ := p
  unfold push
  dsimp only
  split
  · rfl
  · cases active <;> rfl

theorem sound_position (event : Note Rat) (x : Rat) :
    sound { p with position := x } b volume event =
      ({ (p.sound b volume event).1 with position := x },(p.sound b volume event).2) := by
  unfold sound
  dsimp only
  split
  · rfl
  · cases b.refusal? _ with
    | some refusal => rfl
    | none =>
      simp only [release]
      rw [push_position b (p := { p with active := p.active.eraseP (sameKey event) })]

theorem step_position (x : Rat) (h : p.step b volume limit = some (q,sent)) :
    step { p with position := x } b volume limit = some ({ q with position := x },sent) := by
  unfold step at h ⊢
  have hoff : nextOff { p with position := x } = p.nextOff := rfl
  have hon : nextOn { p with position := x } = p.nextOn := rfl
  rw [hoff, hon]
  split at h
  · cases h
  · next hdue =>
    rw [if_neg hdue]
    split at h
    · next hfirst =>
      rw [if_pos hfirst]
      cases hn : p.nextOff with
      | none =>
        rw [hn] at h
        cases h
        rfl
      | some beat =>
        rw [hn] at h
        cases h
        rfl
    · next hfirst =>
      rw [if_neg hfirst]
      cases hup : p.upcoming with
      | nil => simp [hup] at h
      | cons event rest =>
        simp only [hup, Option.some.injEq] at h ⊢
        rw [sound_position b volume (p := { p with upcoming := rest }), h]

theorem Plays.position (x : Rat) (h : Plays b volume limit p q sent) :
    Plays b volume limit { p with position := x } { q with position := x } sent := by
  induction h with
  | stuck hstep =>
    have hdue := (step_eq_none_iff b volume).mp hstep
    exact .stuck ((step_eq_none_iff b volume).mpr hdue)
  | step hstep _ ih => exact .step (step_position b volume x hstep) ih

/-- A run goes on where another one came to rest, wherever the cursor was put in between. -/
theorem Plays.resume {x : Rat} (hle : limit ≤ later) (h : Plays b volume limit p q sent)
    (hmore : Plays b volume later { q with position := x } r more) :
    Plays b volume later p { r with position := q.position } (sent ++ more) :=
  h.trans b volume hle (hmore.position b volume q.position)

/-! ## Players with nothing left -/

/-- Nothing is left to send or to release. -/
def Spent (p : Player Rat) : Prop := p.upcoming = [] ∧ p.active = []

theorem Spent.step_eq_none (h : p.Spent) : p.step b volume limit = none := by
  rw [step_eq_none_iff, h.1, h.2]
  simp

/-- All that is left starts and ends by a beat. -/
def EndsBy (beat : Rat) (p : Player Rat) : Prop :=
  (∀ n ∈ p.upcoming, n.start ≤ beat ∧ n.stop ≤ beat) ∧ ∀ n ∈ p.active, n.stop ≤ beat

theorem EndsBy.push {beat : Rat} (h : EndsBy beat p) (n : ActiveNote Rat) (hn : n.stop ≤ beat) :
    EndsBy beat (p.push b n).1 := by
  obtain ⟨hup,hactive⟩ := h
  refine ⟨by rw [push_upcoming]; exact hup,?_⟩
  unfold Player.push
  split
  · intro m hm
    rcases List.mem_append.mp hm with hm | hm
    · exact hactive m hm
    · exact List.mem_singleton.mp hm ▸ hn
  · split
    · exact hactive
    · next oldest rest hold =>
      intro m hm
      rcases List.mem_append.mp hm with hm | hm
      · exact hactive m (by rw [hold]; exact List.mem_cons_of_mem _ hm)
      · exact List.mem_singleton.mp hm ▸ hn

theorem EndsBy.sound {beat : Rat} (h : EndsBy beat p) (event : Note Rat) (hn : event.stop ≤ beat) :
    EndsBy beat (p.sound b volume event).1 := by
  have hrelease : EndsBy beat (p.release b event).1 :=
    ⟨h.1,fun m hm => h.2 m (List.eraseP_subset hm)⟩
  unfold Player.sound
  dsimp only
  split
  · exact h
  · split
    · exact hrelease
    · exact hrelease.push b _ hn

theorem EndsBy.step {beat : Rat} (h : EndsBy beat p)
    (hstep : p.step b volume limit = some (q,sent)) :
    EndsBy beat q := by
  rcases step_cases b volume hstep with ⟨off,_,_,_,hq⟩ | ⟨event,rest,hup,_,hq⟩
  · cases hq
    exact ⟨h.1,fun m hm => h.2 m (List.mem_filter.mp hm).1⟩
  · have hevent := h.1 event (by rw [hup]; exact List.mem_cons_self)
    have hrest : EndsBy beat { p with upcoming := rest } :=
      ⟨fun m hm => h.1 m (by rw [hup]; exact List.mem_cons_of_mem _ hm),h.2⟩
    have hq' := hrest.sound b volume event hevent.2
    rw [hq] at hq'
    exact hq'

/-- A run that goes beyond the end of everything leaves nothing. -/
theorem Plays.spent (h : Plays b volume limit p q sent) (hends : EndsBy limit p) : q.Spent := by
  induction h with
  | stuck hstep =>
    obtain ⟨hactive,hup⟩ := (step_eq_none_iff b volume).mp hstep
    constructor
    · cases hp : Player.upcoming _ with
      | nil => rfl
      | cons n rest =>
        have hlt := hup n (by rw [hp]; rfl)
        exact absurd (hends.1 n (by rw [hp]; exact List.mem_cons_self)).1 (not_le.mpr hlt)
    · cases hp : Player.active _ with
      | nil => rfl
      | cons n rest =>
        have hlt := hactive n (by rw [hp]; exact List.mem_cons_self)
        exact absurd (hends.2 n (by rw [hp]; exact List.mem_cons_self)) (not_le.mpr hlt)
  | step hstep _ ih => exact ih (hends.step b volume hstep)

/-- Whatever its limit, a run sends the start of what a run sends that leaves nothing. -/
theorem Plays.sent_prefix {w : Player Rat} {all : List Emission} (h : Plays b volume limit p q sent)
    (hw : Plays b volume later p w all) (hspent : w.Spent) : sent <+: all := by
  -- the run that comes to rest sooner is the start of the other one
  rcases le_total limit later with hle | hle
  · obtain ⟨r,more,hrun⟩ := exists_run b volume later (Nat.lt_succ_self q.mostSteps)
    have hfar := h.trans b volume hle (plays_of_run b volume hrun)
    exact ⟨more,(hfar.unique b volume hw).2⟩
  · have hfar := hw.trans b volume hle (.stuck (hspent.step_eq_none b volume))
    have hsent := (h.unique b volume hfar).2
    rw [List.append_nil] at hsent
    exact hsent ▸ List.prefix_rfl

/-! ## Moves of the cursor -/

theorem exists_advance (p : Player Rat) (beats : Rat) :
    ∃ q sent, p.advance b beats volume = some (q,sent) := by
  obtain ⟨q,sent,hrun⟩ := exists_run b volume
    (p.position + Beats.later beats 0.0 + beatSlack) (Nat.lt_succ_self p.mostSteps)
  exact ⟨{ q with position := p.position + Beats.later beats 0.0 },sent,by simp [advance, hrun]⟩

theorem plays_of_advance {beats : Rat} (h : p.advance b beats volume = some (q,sent)) :
    q.position = p.position + Beats.later beats 0.0 ∧
      ∃ r, Plays b volume (q.position + beatSlack) p r sent ∧
        q = { r with position := q.position } := by
  obtain ⟨⟨r,more⟩,hrun,heq⟩ := Option.map_eq_some_iff.mp h
  cases heq
  exact ⟨rfl,r,plays_of_run b volume hrun,rfl⟩

/-- What the player of a slot sends to start and in one move over a number of beats. -/
def wholeStream (capacity : Nat) (beats : Rat) (slot : Slot Rat) : Option (List Message) :=
  ((new slot capacity).advance b beats volume).map fun (_,sent) =>
    Emission.taken ((new slot capacity).start b ++ sent)

/-- A player has sent these messages since it was new. -/
def Reached (capacity : Nat) (slot : Slot Rat) (p : Player Rat) (sent : List Message) : Prop :=
  ∃ q es, Plays b volume (p.position + beatSlack) (new slot capacity) q es ∧
    p = { q with position := p.position } ∧
      sent = Emission.taken ((new slot capacity).start b ++ es)

variable {capacity : Nat} {slot : Slot Rat} {messages all : List Message} {beats : Rat}

theorem Reached.slotId (h : Reached b volume capacity slot p messages) : p.slotId = slot.id := by
  obtain ⟨q,es,hplays,hp,_⟩ := h
  rw [hp]
  exact hplays.slotId b volume

theorem reached_of_advance_new (h : (new slot capacity).advance b beats volume = some (p,sent)) :
    Reached b volume capacity slot p (Emission.taken ((new slot capacity).start b ++ sent)) := by
  obtain ⟨_,q,hplays,hp⟩ := plays_of_advance b volume h
  exact ⟨q,sent,hplays,hp,rfl⟩

theorem Reached.advance (h : Reached b volume capacity slot p messages)
    (hmove : p.advance b beats volume = some (q,sent)) :
    Reached b volume capacity slot q (messages ++ Emission.taken sent) := by
  obtain ⟨r,es,hplays,hp,rfl⟩ := h
  obtain ⟨hposition,w,hmore,hq⟩ := plays_of_advance b volume hmove
  have hle : p.position + beatSlack ≤ q.position + beatSlack := by
    have hlater := Beats.zero_le_later beats
    rw [hposition]
    linarith
  rw [hp] at hmore
  refine ⟨{ w with position := r.position },es ++ sent,hplays.resume b volume hle hmore,?_,?_⟩
  · rw [hq]
  · rw [← List.append_assoc, Emission.taken_append _ sent]

theorem stop_le_durationBeats {tune : Tune Rat} {n : Note Rat} (h : n ∈ tune.events) :
    n.stop ≤ tune.durationBeats :=
  (Beats.isGreatest_foldl_later _ _).2 (Or.inr (List.mem_map_of_mem h))

theorem position_new : (new slot capacity).position = 0 := Beats.zero_eq

/-- A move beyond the end of a tune sends and releases all of it. -/
theorem endsBy_new (htimed : ∀ n ∈ slot.tune.events, 0 ≤ n.duration) {beat : Rat}
    (hbeat : slot.tune.durationBeats ≤ beat) : EndsBy beat (new slot capacity) := by
  refine ⟨fun n hn => ?_,by simp [new]⟩
  have hstop : n.stop ≤ beat := (stop_le_durationBeats hn).trans hbeat
  have hduration : 0 ≤ n.duration := htimed n hn
  have hstart : n.start ≤ n.stop := by
    change n.start ≤ n.start + n.duration
    linarith
  exact ⟨hstart.trans hstop,hstop⟩

/-- One move over the whole tune leaves nothing. -/
theorem plays_of_whole (htimed : ∀ n ∈ slot.tune.events, 0 ≤ n.duration)
    (hbeats : slot.tune.durationBeats ≤ beats)
    (hmove : (new slot capacity).advance b beats volume = some (p,sent)) :
    slot.tune.durationBeats ≤ p.position ∧
      ∃ q, Plays b volume (p.position + beatSlack) (new slot capacity) q sent ∧ q.Spent ∧
        p = { q with position := p.position } := by
  obtain ⟨hposition,q,hplays,hp⟩ := plays_of_advance b volume hmove
  have hend : slot.tune.durationBeats ≤ p.position := by
    rw [hposition, position_new, zero_add, Beats.later_eq_max]
    exact hbeats.trans (le_max_left _ _)
  have hslack := slack_pos
  exact ⟨hend,q,hplays,hplays.spent b volume (endsBy_new htimed (by linarith)),hp⟩

theorem plays_of_wholeStream (htimed : ∀ n ∈ slot.tune.events, 0 ≤ n.duration)
    (hbeats : slot.tune.durationBeats ≤ beats)
    (hall : wholeStream b volume capacity beats slot = some all) :
    ∃ limit w es, Plays b volume limit (new slot capacity) w es ∧ w.Spent ∧
      all = Emission.taken ((new slot capacity).start b ++ es) := by
  obtain ⟨⟨p,es⟩,hmove,rfl⟩ := Option.map_eq_some_iff.mp hall
  obtain ⟨-,w,hplays,hspent,-⟩ := plays_of_whole b volume htimed hbeats hmove
  exact ⟨_,w,es,hplays,hspent,rfl⟩

/-- What a player has sent is the start of the whole stream of its slot. -/
theorem Reached.isPrefix (h : Reached b volume capacity slot p messages)
    (htimed : ∀ n ∈ slot.tune.events, 0 ≤ n.duration) (hbeats : slot.tune.durationBeats ≤ beats)
    (hall : wholeStream b volume capacity beats slot = some all) : messages <+: all := by
  obtain ⟨q,es,hplays,_,rfl⟩ := h
  obtain ⟨limit,w,fs,hwhole,hspent,rfl⟩ := plays_of_wholeStream b volume htimed hbeats hall
  obtain ⟨more,rfl⟩ := hplays.sent_prefix b volume hwhole hspent
  exact ⟨Emission.taken more,by rw [← Emission.taken_append, List.append_assoc]⟩

/-- A finished player has sent the whole stream of its slot. -/
theorem Reached.eq_of_isFinished (h : Reached b volume capacity slot p messages)
    (hfinished : p.isFinished = true) (htimed : ∀ n ∈ slot.tune.events, 0 ≤ n.duration)
    (hbeats : slot.tune.durationBeats ≤ beats)
    (hall : wholeStream b volume capacity beats slot = some all) : messages = all := by
  obtain ⟨q,es,hplays,hp,rfl⟩ := h
  obtain ⟨limit,w,fs,hwhole,hspent,rfl⟩ := plays_of_wholeStream b volume htimed hbeats hall
  have hq : q.Spent := by
    rw [hp] at hfinished
    simp only [isFinished, Bool.and_eq_true, List.isEmpty_iff] at hfinished
    exact hfinished.1
  have hsame : es = fs :=
    (hplays.sent_prefix b volume hwhole hspent).eq_of_length_le
      (hwhole.sent_prefix b volume hplays hq).length_le
  rw [hsame]

end AbcTune.Player
