import Mathlib.Data.List.DropRight
import Mathlib.Tactic.Positivity
import AbcTune.Proofs.Playback.Gap

/-! # The cursor and the time that passes

Each tick takes the time since the tick before, whatever the ticker did in that one, and moves the
cursor by the beats of that time at the tempo it has copied. A tick that has copied a paused state
takes the time as well and does not move the cursor, so that what passes in a pause is lost for good.
On exact beats the cursor of a slot that stays current is therefore a sum over ticks.
-/
namespace AbcTune

/-- A tick in which a slot plays on. -/
structure Tick where
  /-- When it began. -/
  now : Nat
  /-- The time since the tick before began. -/
  elapsed : Nat
  paused : Bool
  /-- Multiple of the tempo of the tune. -/
  tempo : Rat
  /-- Whether the slot came to its end and started over. -/
  rewound : Bool

namespace Tick

/-- The beats that pass in the time of a tick. -/
def beats (bpm : Rat) (k : Tick) : Rat := k.elapsed / 1000000000 * bpm * k.tempo / 60

/-- Where a tick moves the cursor to; it never moves it back but to the start. -/
def move (bpm x : Rat) (k : Tick) : Rat :=
  if k.rewound then 0 else if k.paused then x else x + max (k.beats bpm) 0

/-- The ticks since the slot has started over that are not paused. -/
def counted (ks : List Tick) : List Tick := (ks.rtakeWhile (!·.rewound)).filter (!·.paused)

/-- From the start of a slot on, the cursor adds up the beats of the ticks that count. -/
theorem foldl_move (bpm : Rat) (ks : List Tick) :
    ks.foldl (move bpm) 0 = ((counted ks).map fun k => max (k.beats bpm) 0).sum := by
  induction ks using List.reverseRecOn with
  | nil => rfl
  | append_singleton ks k ih =>
    rw [List.foldl_append, List.foldl_cons, List.foldl_nil, ih, move, counted, counted,
      List.rtakeWhile_concat]
    cases hrewound : k.rewound with
    | true => simp
    | false => cases hpaused : k.paused <;> simp [hpaused]

theorem beats_nonneg {bpm : Rat} (hbpm : 0 ≤ bpm) {k : Tick} (htempo : 0 ≤ k.tempo) :
    0 ≤ k.beats bpm := by
  unfold beats
  positivity

end Tick

/-! ## One tick -/

theorem seconds_eq (nanos : Nat) : (seconds nanos : Rat) = nanos / 1000000000 := by
  have hsplit : ((1000000000 * (nanos / 1000000000) + nanos % 1000000000 : Nat) : Rat) = nanos :=
    congrArg Nat.cast (Nat.div_add_mod nanos 1000000000)
  change ((nanos / 1000000000 : Nat) : Rat) + ((nanos % 1000000000 : Nat) : Rat) /
    ((1000000000 : Nat) : Rat) = _
  rw [← hsplit, Nat.cast_add, Nat.cast_mul, add_div, Nat.cast_ofNat,
    mul_div_cancel_left₀ _ (by norm_num)]

theorem beatsElapsed_eq (nanos : Nat) (bpm tempo : Rat) :
    beatsElapsed nanos bpm tempo = nanos / 1000000000 * bpm * tempo / 60 := by
  unfold beatsElapsed
  rw [seconds_eq]
  norm_num

namespace Ticker

variable {b : Backend} {snap : Snapshot Rat} {elapsed : Nat} {t next : Ticker Rat}
variable {slot : Slot Rat} {p q : Player Rat} {sent : List Emission} {report : Report Rat}

/-- Whether a tick brings a slot that loops to its end. -/
def startsOver (t : Ticker Rat) (b : Backend) (snap : Snapshot Rat) (elapsed : Nat) : Bool :=
  match snap.slot, t.player with
  | some slot, some p =>
    let beats := beatsElapsed elapsed slot.tune.heading.tempo.bpm snap.tempo
    !snap.paused && slot.options.looping &&
      (p.advance b beats snap.volume).any fun moved => moved.1.isFinished
  | _, _ => false

theorem startsOver_of_paused (h : snap.paused = true) :
    t.startsOver b snap elapsed = false := by
  unfold startsOver
  split
  · simp [h]
  · rfl

theorem Moved.startsOver (h : Moved b snap elapsed t slot p q sent) :
    t.startsOver b snap elapsed = (slot.options.looping && q.isFinished) := by
  simp [Ticker.startsOver, h.copied, h.player, h.unpaused, h.move]

/-- What a tick does to the cursor, as it has been told of the time and of the shared state. -/
def asTick (t : Ticker Rat) (b : Backend) (snap : Snapshot Rat) (elapsed now clock : Nat) : Tick where
  now
  elapsed := now - clock
  paused := snap.paused
  tempo := snap.tempo
  rewound := t.startsOver b snap elapsed

theorem Moved.position (h : Moved b snap elapsed t slot p q sent) :
    q.position = p.position +
      max (elapsed / 1000000000 * slot.tune.heading.tempo.bpm * snap.tempo / 60) 0 := by
  rw [(Player.plays_of_advance b snap.volume h.move).1, Beats.later_eq_max, Beats.zero_eq,
    beatsElapsed_eq]

/-- A tick in which a slot plays on moves its cursor as far as it is to, or finishes the slot. -/
theorem play_position (hslot : snap.slot = some slot) (hplayer : t.player = some p)
    (hid : p.slotId = slot.id) {now clock : Nat} (helapsed : elapsed = now - clock)
    (hplay : t.play b snap elapsed = some (next,sent,report)) :
    (next.player = none ∧ report = .finished slot) ∨
      ∃ q, next = { t with player := some q } ∧ q.slotId = slot.id ∧
        q.position = (t.asTick b snap elapsed now clock).move slot.tune.heading.tempo.bpm
          p.position ∧ ∀ s, report ≠ .finished s := by
  have hplaying : t.playing = some slot.id := by rw [playing, hplayer, Option.map_some, hid]
  cases course_of_play hplay with
  | still hsame hstill =>
    have hpaused : snap.paused = true := hstill.resolve_right (by simp [hslot])
    have hsame : t = { t with player := some p } := by rw [← hplayer]
    have hmove : (t.asTick b snap elapsed now clock).move slot.tune.heading.tempo.bpm p.position =
        p.position := by
      rw [Tick.move, asTick, startsOver_of_paused hpaused, hpaused]
      rfl
    exact .inr ⟨p,hsame,hid,hmove.symm,by simp⟩
  | move hmoved hfinished =>
    cases hmoved.copied.symm.trans hslot
    cases hmoved.player.symm.trans hplayer
    refine .inr ⟨_,rfl,hmoved.slotId,?_,by simp⟩
    rw [Tick.move, asTick, hmoved.startsOver, hfinished, hmoved.unpaused, hmoved.position, helapsed,
      Bool.and_false, if_neg Bool.false_ne_true, if_neg Bool.false_ne_true, Tick.beats]
  | loop hmoved hfinished hlooping =>
    cases hmoved.copied.symm.trans hslot
    cases hmoved.player.symm.trans hplayer
    refine .inr ⟨_,rfl,hmoved.slotId,?_,by simp⟩
    rw [Tick.move, asTick, hmoved.startsOver, hfinished, hlooping, Bool.and_true, if_pos rfl]
    exact Beats.zero_eq
  | finish hmoved _ _ =>
    cases hmoved.copied.symm.trans hslot
    exact .inl ⟨rfl,rfl⟩
  | leave _ hnone => cases hnone.symm.trans hslot
  | enter hother hother' _ =>
    cases hother'.symm.trans hslot
    exact absurd hplaying hother

/-- A slot that is entered starts at its start. -/
theorem play_entered (hslot : snap.slot = some slot) (hother : t.playing ≠ some slot.id)
    (hplay : t.play b snap elapsed = some (next,sent,report)) :
    report = .position 0.0 ∧ next.lastTick = t.lastTick ∧
      ∃ q, next.player = some q ∧ q.slotId = slot.id ∧ q.position = 0 := by
  rw [play_enter elapsed hother hslot] at hplay
  obtain ⟨⟨entered,more⟩,henter,heq⟩ := Option.map_eq_some_iff.mp hplay
  obtain ⟨⟨q,moved⟩,hmove,hentered⟩ := Option.map_eq_some_iff.mp henter
  cases heq
  cases hentered
  refine ⟨rfl,by rw [leave_eq],q,rfl,Player.advance_slotId b snap.volume hmove,?_⟩
  rw [(Player.plays_of_advance b snap.volume hmove).1, Player.position_new, Beats.later_eq_max,
    Beats.zero_eq, max_self, add_zero]

end Ticker

namespace Station

variable {st next last : Station Rat} {gone : List (Slot Rat)} {slot : Slot Rat}
variable {clock : Nat} {x : Rat}

/-! ## Ticks of a run -/

/-- The tick that a step plays, where the one before began at a time. -/
def tick? (clock : Nat) (st : Station Rat) : Step Rat → Option Tick
  | .request _ => none
  | .proceed b _ =>
    match st.phase with
    | .copied snap elapsed now => some (st.ticker.asTick b snap elapsed now clock)
    | _ => none

/-- The ticks of a run, where the one before began at a time. -/
def ticks (clock : Nat) : List (Step Rat) → Station Rat → List Tick
  | [], _ => []
  | a :: rest, st =>
    let k := st.tick? clock a
    k.toList ++ (st.step a).elim [] (ticks (k.elim clock Tick.now) rest)

/-- The ticker plays a slot, the last of its ticks began at a time, and the cursor is at a position.
A tick under way has copied the slot and goes by the time since then. -/
structure Cursor (slot : Slot Rat) (clock : Nat) (x : Rat) (st : Station Rat) : Prop where
  player : ∃ p, st.ticker.player = some p ∧ p.slotId = slot.id ∧ p.position = x
  idle : st.phase = .idle → st.ticker.lastTick = clock
  copied : ∀ snap elapsed now, st.phase = .copied snap elapsed now →
    snap.slot = some slot ∧ elapsed = now - clock ∧ st.ticker.lastTick = now
  played : ∀ report now, st.phase = .played report now →
    st.ticker.lastTick = clock ∧ ∀ s, report ≠ .finished s

/-- The slot was played to its end, which is still to be reported. -/
structure Spent (slot : Slot Rat) (st : Station Rat) : Prop where
  player : st.ticker.player = none
  phase : st.phase.finished? = some slot

theorem Cursor.request (h : Cursor slot clock x st) (r : Request Rat) :
    Cursor slot clock x (st.request r) := by
  obtain ⟨hticker,hphase,-⟩ := st.turn_request r
  obtain ⟨hplayer,hidle,hcopied,hplayed⟩ := h
  constructor
  · rwa [hticker]
  · rwa [hticker, hphase]
  · rwa [hticker, hphase]
  · rwa [hticker, hphase]

/-- A tick that begins takes note of the time, and copies what is then the shared state. -/
theorem proceed_idle (hphase : st.phase = .idle) {b : Backend} {now : Nat}
    (hnext : st.proceed b now = some next) :
    next.ticker.player = st.ticker.player ∧ next.ticker.lastTick = now ∧
      next.scheduler.tempo = st.scheduler.tempo ∧
      ∃ snap, next.phase = .copied snap (now - st.ticker.lastTick) now ∧
        snap.slot = next.scheduler.current ∧ snap.tempo = next.scheduler.tempo := by
  obtain ⟨gap,s,hcopy,hs⟩ := snapshot_cases { st.ticker with lastTick := now } st.scheduler now
    b.available
  simp only [proceed, hphase, hcopy, Option.some.injEq] at hnext
  subst hnext
  refine ⟨rfl,rfl,?_,_,rfl,rfl,rfl⟩
  rcases hs with rfl | ⟨-,rfl⟩ <;> rfl

theorem Cursor.copy (h : Cursor slot clock x st) (hphase : st.phase = .idle) {b : Backend}
    {now : Nat} (hnext : st.proceed b now = some next)
    (hcurrent : next.scheduler.current = some slot) : Cursor slot clock x next := by
  obtain ⟨hplayer,hlastTick,-,snap,hcopied,hslot,-⟩ := proceed_idle hphase hnext
  constructor
  · rw [hplayer]
    exact h.player
  · simp [hcopied]
  · rintro _ _ _ hnow
    rw [hcopied] at hnow
    cases hnow
    exact ⟨hslot.trans hcurrent,by rw [h.idle hphase],hlastTick⟩
  · simp [hcopied]

theorem Cursor.play (h : Cursor slot clock x st) {snap : Snapshot Rat} {elapsed now : Nat}
    (hphase : st.phase = .copied snap elapsed now) {b : Backend} {unread : Nat}
    (hnext : st.proceed b unread = some next) :
    Cursor slot now ((st.ticker.asTick b snap elapsed now clock).move
      slot.tune.heading.tempo.bpm x) next ∨ Spent slot next := by
  obtain ⟨hslot,helapsed,hlastTick⟩ := h.copied snap elapsed now hphase
  obtain ⟨p,hplayer,hid,rfl⟩ := h.player
  simp only [proceed, hphase] at hnext
  obtain ⟨⟨t,sent,report⟩,hplay,rfl⟩ := Option.map_eq_some_iff.mp hnext
  rcases Ticker.play_position hslot hplayer hid helapsed hplay with
    ⟨hnone,rfl⟩ | ⟨q,rfl,hqid,hposition,hreport⟩
  · exact .inr ⟨hnone,rfl⟩
  · refine .inl ⟨⟨q,rfl,hqid,hposition⟩,by simp,by simp,?_⟩
    rintro _ _ hplayed
    cases hplayed
    exact ⟨hlastTick,hreport⟩

theorem Cursor.report (h : Cursor slot clock x st) {report : Report Rat} {now : Nat}
    (hphase : st.phase = .played report now) {b : Backend} {unread : Nat}
    (hnext : st.proceed b unread = some next) : Cursor slot clock x next := by
  obtain ⟨hlastTick,hunfinished⟩ := h.played report now hphase
  simp only [proceed, hphase, Option.some.injEq] at hnext
  subst hnext
  cases report with
  | nothing => exact ⟨h.player,fun _ => hlastTick,by simp,by simp⟩
  | position beats => exact ⟨h.player,fun _ => hlastTick,by simp,by simp⟩
  | finished s => exact absurd rfl (hunfinished s)

/-- While the slot is current, a step that plays a tick moves the cursor by it, or finishes the slot.
No other step moves the cursor. -/
theorem Cursor.step (h : Cursor slot clock x st) {a : Step Rat} (hnext : st.step a = some next)
    (hcurrent : next.scheduler.current = some slot) :
    Cursor slot ((st.tick? clock a).elim clock Tick.now)
      ((st.tick? clock a).toList.foldl (Tick.move slot.tune.heading.tempo.bpm) x) next ∨
      Spent slot next := by
  cases a with
  | request r =>
    cases Option.some.inj hnext
    exact .inl (h.request r)
  | proceed b unread =>
    cases hphase : st.phase with
    | idle =>
      simp only [tick?, hphase]
      exact .inl (h.copy hphase hnext hcurrent)
    | copied snap elapsed now =>
      simp only [tick?, hphase]
      exact h.play hphase hnext
    | played report now =>
      simp only [tick?, hphase]
      exact .inl (h.report hphase hnext)

/-- A slot that was played to its end is no longer current once that is reported. -/
theorem Spent.step (h : Spent slot st) (haccounted : Accounted st gone) {a : Step Rat}
    (hnext : st.step a = some next) (hcurrent : st.scheduler.current = some slot)
    (hstays : next.scheduler.current = some slot) : Spent slot next := by
  cases a with
  | request r =>
    cases Option.some.inj hnext
    obtain ⟨hticker,hphase,-⟩ := st.turn_request r
    exact ⟨by rw [hticker, h.player],by rw [hphase, h.phase]⟩
  | proceed b unread =>
    obtain ⟨now,hphase⟩ := phase_of_finished h.phase
    simp only [Station.step, proceed, hphase, Option.some.injEq] at hnext
    subst hnext
    -- what would be current then had waited before
    have hqueue := (Scheduler.turn_finish st.ticker st.scheduler slot now).2 slot hstays rfl
    exact absurd rfl (haccounted.id_ne hcurrent hqueue)

theorem Cursor.follow (h : Cursor slot clock x st ∨ Spent slot st) (haccounted : Accounted st gone)
    {steps : List (Step Rat)} (hrun : Station.follow steps st = some last)
    (hcurrent : ∀ done, done <+: steps → ∀ mid, Station.follow done st = some mid →
      mid.scheduler.current = some slot) :
    Spent slot last ∨ ∃ clock', Cursor slot clock'
      ((ticks clock steps st).foldl (Tick.move slot.tune.heading.tempo.bpm) x) last := by
  induction steps generalizing st gone clock x with
  | nil =>
    cases Option.some.inj hrun
    exact h.elim (fun h => .inr ⟨clock,h⟩) .inl
  | cons a rest ih =>
    obtain ⟨next,hnext,hrest⟩ := Option.bind_eq_some_iff.mp hrun
    have hfirst := hcurrent [] (List.nil_prefix) st rfl
    have hlater : ∀ done, done <+: rest → ∀ mid, Station.follow done next = some mid →
        mid.scheduler.current = some slot := by
      intro done hdone mid hmid
      refine hcurrent (a :: done) (List.cons_prefix_cons.mpr ⟨rfl,hdone⟩) mid ?_
      rw [Station.follow, hnext]
      exact hmid
    have hstays := hlater [] List.nil_prefix next rfl
    have hstep : Cursor slot ((st.tick? clock a).elim clock Tick.now)
        ((st.tick? clock a).toList.foldl (Tick.move slot.tune.heading.tempo.bpm) x) next ∨
          Spent slot next := by
      rcases h with h | h
      · exact h.step hnext hstays
      · exact .inr (h.step haccounted hnext hfirst hstays)
    have hlast := ih hstep (haccounted.step hnext) hrest hlater
    rwa [ticks, hnext, List.foldl_append]

/-! ## Where a slot is entered -/

/-- What a tick under way goes by: the time that it has taken note of, and a slot that was
queued. -/
structure Prepared (st : Station Rat) : Prop where
  now : ∀ snap elapsed now, st.phase = .copied snap elapsed now → st.ticker.lastTick = now
  queued : ∀ snap elapsed now, st.phase = .copied snap elapsed now →
    ∀ slot ∈ snap.slot, slot ∈ st.accepted

theorem Prepared.step (h : Prepared st) (haccounted : Accounted st gone) {a : Step Rat}
    (hnext : st.step a = some next) : Prepared next := by
  cases a with
  | request r =>
    have hsubset := accepted_subset hnext
    cases Option.some.inj hnext
    obtain ⟨hticker,hphase,-⟩ := st.turn_request r
    constructor
    · rw [hticker, hphase]
      exact h.now
    · rw [hphase]
      exact fun snap elapsed now hcopied slot hslot => hsubset (h.queued snap elapsed now hcopied slot hslot)
  | proceed b clock =>
    have hafter := haccounted.step hnext
    cases hphase : st.phase with
    | idle =>
      obtain ⟨-,hlastTick,-,snap,hcopied,hslot,-⟩ := proceed_idle hphase hnext
      constructor
      · rintro _ _ _ hnow
        rw [hcopied] at hnow
        cases hnow
        exact hlastTick
      · rintro _ _ _ hnow slot hmem
        rw [hcopied] at hnow
        cases hnow
        exact hafter.mem_accepted (hslot.symm.trans hmem)
    | copied snap elapsed now =>
      simp only [Station.step, proceed, hphase] at hnext
      obtain ⟨played,-,rfl⟩ := Option.map_eq_some_iff.mp hnext
      exact ⟨by simp,by simp⟩
    | played report now =>
      simp only [Station.step, proceed, hphase, Option.some.injEq] at hnext
      subst hnext
      exact ⟨by simp,by simp⟩

theorem Prepared.follow (h : Prepared st) (haccounted : Accounted st gone)
    {steps : List (Step Rat)} (hrun : Station.follow steps st = some last) : Prepared last := by
  have hboth : Prepared last ∧ ∃ gone, Accounted last gone :=
    follow_keeps (P := fun mid => Prepared mid ∧ ∃ gone, Accounted mid gone)
      (fun ⟨h,_,haccounted⟩ hnext => ⟨h.step haccounted hnext,_,haccounted.step hnext⟩)
      ⟨h,gone,haccounted⟩ hrun
  exact hboth.1

/-- The current slot is known by its id. -/
theorem Accounted.current_eq (h : Accounted st gone) (hslot : slot ∈ st.accepted)
    (hcurrent : st.scheduler.isCurrent slot.id) : st.scheduler.current = some slot := by
  obtain ⟨current,heq,hid⟩ := isCurrent_iff.mp hcurrent
  rw [heq, List.inj_on_of_nodup_map h.ids (h.mem_accepted heq) hslot hid]

/-! ## Tempos -/

/-- The tempo is one that may be asked for, and so is the one that a tick under way has copied. -/
structure InTempo (st : Station Rat) : Prop where
  tempo : isTempo st.scheduler.tempo = true
  copied : ∀ snap elapsed now, st.phase = .copied snap elapsed now → isTempo snap.tempo = true

theorem isTempo_of_settled {s s' : Scheduler Rat} (h : isTempo s.tempo = true)
    (hsettled : s.Settled s') : isTempo s'.tempo = true := by
  rcases hsettled.tempo with heq | htempo
  · rw [heq, h]
  · exact htempo

theorem InTempo.step (h : InTempo st) {a : Step Rat} (hnext : st.step a = some next) :
    InTempo next := by
  cases a with
  | request r =>
    cases Option.some.inj hnext
    refine ⟨isTempo_of_settled h.tempo (st.settled_request r),?_⟩
    rw [(st.turn_request r).2.1]
    exact h.copied
  | proceed b clock =>
    cases hphase : st.phase with
    | idle =>
      obtain ⟨-,-,htempo,snap,hcopied,-,hsnap⟩ := proceed_idle hphase hnext
      have hnew : isTempo next.scheduler.tempo = true := by rw [htempo, h.tempo]
      refine ⟨hnew,?_⟩
      rintro _ _ _ hnow
      rw [hcopied] at hnow
      cases hnow
      rw [hsnap, hnew]
    | copied snap elapsed now =>
      simp only [Station.step, proceed, hphase] at hnext
      obtain ⟨played,-,rfl⟩ := Option.map_eq_some_iff.mp hnext
      exact ⟨h.tempo,by simp⟩
    | played report now =>
      simp only [Station.step, proceed, hphase, Option.some.injEq] at hnext
      subst hnext
      have hsettled := Scheduler.settled_report st.ticker st.scheduler now report
      exact ⟨isTempo_of_settled h.tempo hsettled,by simp⟩

theorem InTempo.ticks (h : InTempo st) (clock : Nat) (steps : List (Step Rat)) :
    ∀ k ∈ ticks clock steps st, isTempo k.tempo = true := by
  induction steps generalizing st clock with
  | nil => simp [Station.ticks]
  | cons a rest ih =>
    intro k hk
    rcases List.mem_append.mp hk with hk | hk
    · cases a with
      | request r => simp [tick?] at hk
      | proceed b unread =>
        cases hphase : st.phase with
        | copied snap elapsed now =>
          simp only [tick?, hphase, Option.toList_some, List.mem_singleton] at hk
          subst hk
          exact h.copied snap elapsed now hphase
        | idle => simp [tick?, hphase] at hk
        | played report now => simp [tick?, hphase] at hk
    · cases hnext : st.step a with
      | none => simp [hnext] at hk
      | some next =>
        rw [hnext] at hk
        exact ih (h.step hnext) _ k hk

theorem isTempo_iff (t : Rat) : isTempo t = true ↔ 0 < t := by
  simp [isTempo, Beats.latest, Beats.zero_eq]

/-! ## Whole runs -/

/-- From an empty queue, whatever the order of requests and phases: a tick has copied a slot that is
not played yet, and enters it, and the slot stays current. As long as there is a player of the slot,
its position adds up the beats of the later ticks that were not paused, since the slot has last started
over: for each of them the time since the tick before, paused or not, at the tempo that it has copied.
Beats less than none do not move the cursor back; there are none where the tune and the ticker have
tempos that are not negative. -/
theorem follow_cursor (slots notes usualGap start : Nat) (volume : Float32) (tempo : Rat)
    (available : Bool) (setup steps : List (Step Rat)) {first : Station Rat} {snap : Snapshot Rat}
    {elapsed now unread : Nat} {b : Backend}
    (hsetup : follow setup (new (.new slots volume tempo available) (.new usualGap notes start)) =
      some st)
    (hphase : st.phase = .copied snap elapsed now) (hslot : snap.slot = some slot)
    (hother : st.ticker.playing ≠ some slot.id) (hfirst : st.step (.proceed b unread) = some first)
    (hrun : follow steps first = some last)
    (hstays : ∀ done, done <+: steps → ∀ mid, follow done first = some mid →
      mid.scheduler.isCurrent slot.id) :
    let bpm := slot.tune.heading.tempo.bpm
    let later := Tick.counted (ticks now steps first)
    (last.ticker.player = none → last.phase.finished? = some slot) ∧
      ∀ p, last.ticker.player = some p → p.slotId = slot.id ∧
        p.position = (later.map fun k => max (k.beats bpm) 0).sum ∧
        (0 ≤ bpm → isTempo tempo = true → p.position = (later.map (Tick.beats bpm)).sum) := by
  intro bpm later
  have hnew := accounted_new slots notes usualGap start volume tempo available
  have haccounted := hnew.follow hsetup
  have hprepared : Prepared st :=
    Prepared.follow ⟨by simp [new],by simp [new]⟩ hnew hsetup
  have hlater := haccounted.step hfirst
  have hqueued : slot ∈ st.accepted := hprepared.queued snap elapsed now hphase slot hslot
  have hcurrent : ∀ done, done <+: steps → ∀ mid, follow done first = some mid →
      mid.scheduler.current = some slot := by
    intro done hdone mid hmid
    refine (hlater.follow hmid).current_eq ?_ (hstays done hdone mid hmid)
    exact accepted_subset_of_follow hmid (accepted_subset hfirst hqueued)
  have hcursor : Cursor slot now 0 first := by
    simp only [step, proceed, hphase] at hfirst
    obtain ⟨⟨t,sent,report⟩,hplay,rfl⟩ := Option.map_eq_some_iff.mp hfirst
    obtain ⟨rfl,hlastTick,hplayer⟩ := Ticker.play_entered hslot hother hplay
    refine ⟨hplayer,by simp,by simp,?_⟩
    rintro _ _ hplayed
    cases hplayed
    exact ⟨hlastTick.trans (hprepared.now snap elapsed now hphase),by simp⟩
  rcases Cursor.follow (.inl hcursor) hlater hrun hcurrent with hspent | ⟨clock,hlast⟩
  · refine ⟨fun _ => hspent.phase,fun p hp => ?_⟩
    rw [hspent.player] at hp
    cases hp
  · obtain ⟨p,hp,hid,hposition⟩ := hlast.player
    rw [Tick.foldl_move] at hposition
    refine ⟨by simp [hp],fun q hq => ?_⟩
    cases hp.symm.trans hq
    refine ⟨hid,hposition,fun hbpm htempo => ?_⟩
    rw [hposition]
    refine congrArg List.sum (List.map_congr_left fun k hk => max_eq_left ?_)
    have hintempo : InTempo first := by
      refine InTempo.step (follow_keeps (fun h => h.step) ?_ hsetup) hfirst
      exact ⟨htempo,by simp [new]⟩
    refine Tick.beats_nonneg hbpm ((isTempo_iff _).mp (hintempo.ticks now steps k ?_)).le
    exact (List.rtakeWhile_suffix _ _).subset (List.mem_of_mem_filter hk)

/-- A tune of four beats that loops is queued, and a tick begins. -/
def looped : List (Step Rat) :=
  [.request (.enqueue (Player.overlapping Rat).tune .forever), .proceed .accepting 0]

/-- A whole tick. -/
def tickAt (now : Nat) : List (Step Rat) := List.replicate 3 (.proceed .accepting now)

/-- The rest of the tick, one of a second, one of half a second at twice the tempo, one of a second
in a pause, and one of a quarter of a second. -/
def replayed : List (Step Rat) :=
  [.proceed .accepting 0] ++ tickAt 1000000000 ++ [.request (.setTempo 2)] ++ tickAt 1500000000 ++
    [.request .pause] ++ tickAt 2500000000 ++ [.request .resume] ++ tickAt 2750000000

/-- The tune starts over in the second of these ticks, and only the last one counts. -/
theorem follow_cursor_looped :
    ∃ (st first last : Station Rat) (slot : Slot Rat) (p : Player Rat),
      follow looped (new (.new 8 1.0 1 true) (.new 0 4 0)) = some st ∧
        st.step (.proceed .accepting 0) = some first ∧ follow replayed first = some last ∧
        (ticks 0 replayed first).map (fun k => (k.elapsed,k.paused,k.tempo,k.rewound)) =
          [(1000000000,false,1,false), (500000000,false,2,true), (1000000000,true,2,false),
            (250000000,false,2,false)] ∧
        last.ticker.player = some p ∧ p.position = 1 ∧ slot.tune.heading.tempo.bpm = 120 ∧
        p.position = ((Tick.counted (ticks 0 replayed first)).map (Tick.beats 120)).sum := by
  let start : Station Rat := new (.new 8 1.0 1 true) (.new 0 4 0)
  have hcopied : (follow looped start).map (fun st =>
      match st.phase with
      | .copied snap _ now =>
        (now,snap.slot.map (fun slot => (slot.id,slot.tune.heading.tempo.bpm)),st.ticker.playing)
      | _ => (1,none,none)) = some (0,some (1,120),none) := by
    decide +kernel
  have hplayed : ((follow looped start).bind (·.step (.proceed .accepting 0))).bind (fun first =>
      (follow replayed first).map fun last =>
        ((ticks 0 replayed first).map (fun k => (k.elapsed,k.paused,k.tempo,k.rewound)),
          last.ticker.player.map (·.position))) =
      some ([(1000000000,false,1,false), (500000000,false,2,true), (1000000000,true,2,false),
        (250000000,false,2,false)],some 1) := by
    decide +kernel
  have hstays : ∀ n < replayed.length + 1, ((follow looped start).bind
      (follow (.proceed .accepting 0 :: replayed.take n))).all (·.scheduler.isCurrent 1) = true := by
    decide +kernel
  obtain ⟨first,hentered,hvalue⟩ := Option.bind_eq_some_iff.mp hplayed
  obtain ⟨st,hst,hfirst⟩ := Option.bind_eq_some_iff.mp hentered
  obtain ⟨last,hrun,hlast⟩ := Option.map_eq_some_iff.mp hvalue
  obtain ⟨hticks,hposition⟩ := Prod.mk.inj hlast
  obtain ⟨p,hp,hone⟩ := Option.map_eq_some_iff.mp hposition
  rw [hst, Option.map_some] at hcopied
  cases hphase : st.phase with
  | idle => simp [hphase] at hcopied
  | played report now => simp [hphase] at hcopied
  | copied snap elapsed now =>
    simp only [hphase, Option.some.injEq, Prod.mk.injEq] at hcopied
    obtain ⟨rfl,hcopy,hidle⟩ := hcopied
    obtain ⟨slot,hslot,hknown⟩ := Option.map_eq_some_iff.mp hcopy
    obtain ⟨hid,hbpm⟩ := Prod.mk.inj hknown
    have hkept : ∀ done, done <+: replayed → ∀ mid, follow done first = some mid →
        mid.scheduler.isCurrent slot.id := by
      intro done hdone mid hmid
      have hall := hstays done.length (Nat.lt_succ_of_le hdone.length_le)
      rw [← List.prefix_iff_eq_take.mp hdone, hst, Option.bind_some, follow, hfirst,
        Option.bind_some, hmid] at hall
      rw [hid]
      exact hall
    obtain ⟨-,hsum⟩ := follow_cursor 8 4 0 0 1.0 1 true looped replayed hst hphase hslot
      (by rw [hidle]; simp) hfirst hrun hkept
    obtain ⟨-,-,hexact⟩ := hsum p hp
    rw [hbpm] at hexact
    exact ⟨st,first,last,slot,p,hst,hfirst,hrun,hticks,hp,hone,hbpm,
      hexact (by norm_num) (by decide +kernel)⟩

end Station
end AbcTune
