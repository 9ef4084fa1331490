import AbcTune.Playback.Ticker
import AbcTune.Proofs.Playback.Stream

/-! # Playing the queue

The shared state and the ticker run side by side: a tick is made of three phases, and tunes may be
queued before, between and after them. Whatever the order, the backend has taken the whole streams
of the tunes that are done, in the order of queueing, and the start of the stream of the current
one.
-/
namespace AbcTune

/-- How far a tick has got, with what its next phase goes by. -/
inductive Phase (β : Type) where
  | idle
  | copied (snap : Snapshot β) (elapsed now : Nat)
  | played (report : Report β) (now : Nat)

/-- The shared state and the ticker, with what went in and what came out so far. -/
structure Station (β : Type) where
  scheduler : Scheduler β
  ticker : Ticker β
  phase : Phase β
  /-- All slots that were queued, in order. -/
  accepted : List (Slot β)
  /-- All messages that the backend has taken. -/
  taken : List Message

namespace Station

inductive Action (β : Type) where
  | enqueue (tune : Tune β) (options : SlotOptions)
  /-- The next phase of the ticker; the clock is looked at where a tick begins. -/
  | proceed (clock : Nat)

section Running

variable {β : Type} [Beats β] (b : Backend)

def new (scheduler : Scheduler β) (ticker : Ticker β) : Station β where
  scheduler
  ticker
  phase := .idle
  accepted := []
  taken := []

def enqueue (st : Station β) (tune : Tune β) (options : SlotOptions) : Station β :=
  match st.scheduler.enqueue tune options with
  | (s,.ok id) => { st with scheduler := s, accepted := st.accepted ++ [⟨id,tune,options⟩] }
  | (s,.error _) => { st with scheduler := s }

/-- There is no result if playing never ends. -/
def proceed (st : Station β) (clock : Nat) : Option (Station β) :=
  match st.phase with
  | .idle =>
    let (t,s,snap) := { st.ticker with lastTick := clock }.snapshot st.scheduler clock b.available
    let elapsed := clock - st.ticker.lastTick
    some { st with scheduler := s, ticker := t, phase := .copied snap elapsed clock }
  | .copied snap elapsed now =>
    (st.ticker.play b snap elapsed).map fun (t,sent,report) =>
      { st with
        ticker := t
        phase := .played report now
        taken := st.taken ++ Emission.taken sent }
  | .played report now =>
    let (t,s) := st.ticker.report st.scheduler now report
    some { st with scheduler := s, ticker := t, phase := .idle }

def act (st : Station β) : Action β → Option (Station β)
  | .enqueue tune options => some (st.enqueue tune options)
  | .proceed clock => st.proceed b clock

def run : List (Action β) → Station β → Option (Station β)
  | [], st => some st
  | a :: rest, st => (st.act b a).bind (run rest)

omit [Beats β] in
/-- A request to queue a tune puts a slot at the end of the queue or changes nothing. -/
theorem enqueue_cases (st : Station β) (tune : Tune β) (options : SlotOptions) :
    st.enqueue tune options = st ∨
      st.enqueue tune options =
        { st with
          scheduler.queue := st.scheduler.queue ++ [⟨st.scheduler.nextId,tune,options⟩]
          scheduler.nextId := st.scheduler.nextId + 1
          accepted := st.accepted ++ [⟨st.scheduler.nextId,tune,options⟩] } := by
  unfold enqueue Scheduler.enqueue
  cases st.scheduler.refusal? tune with
  | some problem => exact Or.inl rfl
  | none => exact Or.inr rfl

/-- The next slot is only taken up where there is no current one. -/
theorem takeUp_cases (t : Ticker β) (s : Scheduler β) (now : Nat) :
    ∃ gap, t.takeUp s now = ({ t with gapUntil := gap },s) ∨
      s.current = none ∧ t.takeUp s now = ({ t with gapUntil := gap },s.advanceQueue) := by
  unfold Ticker.takeUp
  split
  · exact ⟨none,Or.inl rfl⟩
  · next hcurrent =>
    split
    · exact ⟨none,Or.inr ⟨by simpa using hcurrent,rfl⟩⟩
    · exact ⟨t.gapUntil,Or.inl rfl⟩

/-- The first phase of a tick takes note of a stop and takes up the next slot, and copies what is
then the shared state. -/
theorem snapshot_cases (t : Ticker β) (s : Scheduler β) (now : Nat) (available : Bool) :
    ∃ gap s', t.snapshot s now available =
        ({ t with gapUntil := gap },s',⟨s'.current,s'.paused,s'.volume,s'.tempo⟩) ∧
      (s' = { s with available, stopped := false } ∨
        s.current = none ∧ s' = { s with available, stopped := false }.advanceQueue) := by
  have hstop : ∃ gap, t.noticeStop { s with available } =
      ({ t with gapUntil := gap },{ s with available, stopped := false }) := by
    unfold Ticker.noticeStop
    split
    · exact ⟨none,rfl⟩
    · next hstopped =>
      have hfalse : s.stopped = false := Bool.eq_false_iff.mpr hstopped
      exact ⟨t.gapUntil,congrArg (fun stopped => (t,{ s with available, stopped })) hfalse⟩
  obtain ⟨gap,hstop⟩ := hstop
  obtain ⟨gap',heq | ⟨hnone,heq⟩⟩ :=
    takeUp_cases { t with gapUntil := gap } { s with available, stopped := false } now
  · exact ⟨gap',_,by unfold Ticker.snapshot; rw [hstop]; dsimp only; rw [heq],Or.inl rfl⟩
  · exact ⟨gap',_,by unfold Ticker.snapshot; rw [hstop]; dsimp only; rw [heq],Or.inr ⟨hnone,rfl⟩⟩

/-- With nothing in between, the three phases make up one tick. -/
theorem run_tick (st : Station β) (now : Nat) (hidle : st.phase = .idle) :
    run b (List.replicate 3 (.proceed now)) st =
      (st.ticker.tick st.scheduler b now).map fun (t,s,sent) =>
        { st with scheduler := s, ticker := t, taken := st.taken ++ Emission.taken sent } := by
  obtain ⟨scheduler,ticker,phase,accepted,taken⟩ := st
  cases hidle
  rcases hcopy : Ticker.snapshot { ticker with lastTick := now } scheduler now b.available
    with ⟨t,s,snap⟩
  simp only [run, List.replicate, act, proceed, Option.bind_some, Ticker.tick, hcopy]
  cases t.play b snap (now - ticker.lastTick) with
  | none => rfl
  | some played => rfl

end Running

variable (b : Backend) (volume : Float32) (capacity : Nat) (past : Slot Rat → Rat)

/-- All that a player of a slot sends from its start to a beat past its end. -/
def stream (slot : Slot Rat) : List Message :=
  (Player.wholeStream b volume capacity (past slot) slot).getD []

theorem wholeStream_eq_stream (slot : Slot Rat) :
    Player.wholeStream b volume capacity (past slot) slot =
      some (stream b volume capacity past slot) := by
  obtain ⟨q,sent,hmove⟩ := Player.exists_advance b volume (Player.new slot capacity) (past slot)
  simp [stream, Player.wholeStream, hmove]

/-- A slot that plays once, with notes that do not end before they start. -/
structure Plain (slot : Slot Rat) : Prop where
  once : slot.options.looping = false
  timed : ∀ n ∈ slot.tune.events, 0 ≤ n.duration

/-- What was taken of the current slot; its player starts a tick after it has become current. -/
inductive Underway : Option (Slot Rat) → Option (Player Rat) → List Message → Prop where
  | waiting (current : Option (Slot Rat)) : Underway current none []
  | playing {slot : Slot Rat} {p : Player Rat} {part : List Message}
      (h : p.Reached b volume capacity slot part) : Underway (some slot) (some p) part

/-- What was taken of the current slot, in each phase of a tick. -/
def Agrees (current : Option (Slot Rat)) (player : Option (Player Rat)) (part : List Message) :
    Phase Rat → Prop
  | .copied snap _ _ =>
    Underway b volume capacity current player part ∧
      snap.slot = current ∧ snap.paused = false ∧ snap.volume = volume
  | .played (.finished slot) _ =>
    current = some slot ∧ player = none ∧ part = stream b volume capacity past slot
  | _ => Underway b volume capacity current player part

/-- The slots that are done were played in full, and the current one in part. -/
structure InOrder (st : Station Rat) (finished : List (Slot Rat)) (part : List Message) :
    Prop where
  accepted : st.accepted = finished ++ st.scheduler.slots
  taken : st.taken = finished.flatMap (stream b volume capacity past) ++ part
  agrees : Agrees b volume capacity past st.scheduler.current st.ticker.player part st.phase
  plain : ∀ slot ∈ st.accepted, Plain slot
  unpaused : st.scheduler.paused = false
  unstopped : st.scheduler.stopped = false
  volume : st.scheduler.volume = volume
  capacity : st.ticker.capacity = capacity

variable {b volume capacity past}
variable {st next : Station Rat} {finished : List (Slot Rat)} {part : List Message}

theorem inOrder_new (notes usualGap now : Nat) (tempo : Rat) (available : Bool) :
    InOrder b volume capacity past
      (new (.new notes volume tempo available) (.new usualGap capacity now)) [] [] where
  accepted := rfl
  taken := rfl
  agrees := .waiting none
  plain := by simp [new]
  unpaused := rfl
  unstopped := rfl
  volume := rfl
  capacity := rfl

/-! ## Requests -/

theorem InOrder.enqueue (h : InOrder b volume capacity past st finished part) {tune : Tune Rat}
    {options : SlotOptions} (honce : options.looping = false)
    (htimed : ∀ n ∈ tune.events, 0 ≤ n.duration) :
    InOrder b volume capacity past (st.enqueue tune options) finished part := by
  rcases enqueue_cases st tune options with heq | heq
  · rw [heq]
    exact h
  · rw [heq]
    refine ⟨?_,h.taken,?_,?_,h.unpaused,h.unstopped,h.volume,h.capacity⟩
    · simp [h.accepted, Scheduler.slots]
    · exact h.agrees
    · intro other hother
      rcases List.mem_append.mp hother with hother | hother
      · exact h.plain other hother
      · cases List.mem_singleton.mp hother
        exact ⟨honce,htimed⟩

/-! ## The phases of a tick -/

theorem Underway.of_current_none {current : Option (Slot Rat)} {player : Option (Player Rat)}
    (h : Underway b volume capacity none player part) :
    Underway b volume capacity current player part := by
  cases h
  exact .waiting current

theorem InOrder.copy (h : InOrder b volume capacity past st finished part)
    (hphase : st.phase = .idle) (clock : Nat) :
    ∃ next, st.proceed b clock = some next ∧
      InOrder b volume capacity past next finished part := by
  have hunderway : Underway b volume capacity st.scheduler.current st.ticker.player part := by
    have hagrees := h.agrees
    rwa [hphase] at hagrees
  obtain ⟨gap,s,hcopy,hs⟩ := snapshot_cases { st.ticker with lastTick := clock } st.scheduler clock
    b.available
  simp only [proceed, hphase, hcopy]
  rcases hs with rfl | ⟨hnone,rfl⟩
  · refine ⟨_,rfl,h.accepted,h.taken,?_,h.plain,h.unpaused,rfl,h.volume,h.capacity⟩
    exact ⟨hunderway,rfl,h.unpaused,h.volume⟩
  · refine ⟨_,rfl,?_,h.taken,?_,h.plain,rfl,rfl,h.volume,h.capacity⟩
    · rw [h.accepted, Scheduler.slots_advanceQueue, Scheduler.slots, hnone]
      rfl
    · refine ⟨?_,rfl,rfl,h.volume⟩
      rw [hnone] at hunderway
      exact hunderway.of_current_none

theorem play_eq_proceed (b : Backend) (volume : Float32) (tempo : Rat) (elapsed : Nat)
    {t : Ticker Rat} {slot : Slot Rat} {p : Player Rat} (hplayer : t.player = some p)
    (hid : p.slotId = slot.id) :
    t.play b ⟨some slot,false,volume,tempo⟩ elapsed =
      t.proceed b slot p (beatsElapsed elapsed slot.tune.heading.tempo.bpm tempo) volume := by
  simp [Ticker.play, Ticker.playing, hplayer, hid]

/-- A slot that plays once keeps its player until that is done. -/
theorem proceed_eq (t : Ticker Rat) {slot : Slot Rat} {p q : Player Rat} {beats : Rat}
    {sent : List Emission} (honce : slot.options.looping = false)
    (hmove : p.advance b beats volume = some (q,sent)) :
    t.proceed b slot p beats volume =
      if q.isFinished then some ({ t with player := none },sent,.finished slot)
      else some ({ t with player := some q },sent,.position q.position) := by
  cases hfinished : q.isFinished with
  | false => simp [Ticker.proceed, hmove, hfinished]
  | true => simp [Ticker.proceed, hmove, hfinished, honce]

/-- Playing what is due ends, and sends the next part of the current stream or its whole rest. -/
theorem Underway.exists_play {t : Ticker Rat} {snap : Snapshot Rat}
    (h : Underway b volume capacity snap.slot t.player part)
    (hpast : ∀ slot : Slot Rat, slot.tune.durationBeats ≤ past slot)
    (hplain : ∀ slot ∈ snap.slot, Plain slot) (hpaused : snap.paused = false)
    (hvolume : snap.volume = volume) (hcapacity : t.capacity = capacity) (elapsed now : Nat) :
    ∃ t' sent report, t.play b snap elapsed = some (t',sent,report) ∧ t'.capacity = capacity ∧
      Agrees b volume capacity past snap.slot t'.player (part ++ Emission.taken sent)
        (.played report now) := by
  obtain ⟨slot,paused,volume,tempo⟩ := snap
  obtain ⟨player,gap,last,usual,capacity⟩ := t
  cases hpaused
  cases hvolume
  cases hcapacity
  cases h with
  | waiting _ =>
    cases slot with
    | none => exact ⟨⟨none,gap,last,usual,capacity⟩,[],.nothing,rfl,rfl,.waiting none⟩
    | some slot =>
      obtain ⟨q,sent,hmove⟩ := Player.exists_advance b volume (Player.new slot capacity) 0.0
      refine ⟨⟨some q,gap,last,usual,capacity⟩,(Player.new slot capacity).start b ++ sent,
        .position 0.0,?_,rfl,.playing (Player.reached_of_advance_new b volume hmove)⟩
      simp [Ticker.play, Ticker.playing, Ticker.leave, Ticker.enter, hmove]
  | @playing slot p part hreached =>
    obtain ⟨honce,htimed⟩ := hplain slot rfl
    obtain ⟨q,sent,hmove⟩ := Player.exists_advance b volume p
      (beatsElapsed elapsed slot.tune.heading.tempo.bpm tempo)
    have hnext := hreached.advance b volume hmove
    have hplay := (play_eq_proceed (t := ⟨some p,gap,last,usual,capacity⟩) b volume tempo elapsed
      rfl hreached.slotId).trans (proceed_eq _ honce hmove)
    cases hfinished : q.isFinished with
    | false =>
      rw [hfinished] at hplay
      exact ⟨⟨some q,gap,last,usual,capacity⟩,sent,.position q.position,hplay,rfl,.playing hnext⟩
    | true =>
      rw [hfinished] at hplay
      have hall := hnext.eq_of_isFinished b volume hfinished htimed (hpast slot)
        (wholeStream_eq_stream b volume capacity past slot)
      exact ⟨⟨none,gap,last,usual,capacity⟩,sent,.finished slot,hplay,rfl,rfl,rfl,hall⟩

theorem InOrder.mem_accepted (h : InOrder b volume capacity past st finished part)
    {slot : Slot Rat} (hslot : slot ∈ st.scheduler.current) : slot ∈ st.accepted := by
  rw [h.accepted, Scheduler.slots]
  exact List.mem_append_right _ (List.mem_append_left _ (Option.mem_toList.mpr hslot))

theorem InOrder.play (h : InOrder b volume capacity past st finished part)
    (hpast : ∀ slot : Slot Rat, slot.tune.durationBeats ≤ past slot) {snap : Snapshot Rat}
    {elapsed now : Nat} (hphase : st.phase = .copied snap elapsed now) (clock : Nat) :
    ∃ next more, st.proceed b clock = some next ∧
      InOrder b volume capacity past next finished (part ++ more) := by
  have hagrees := h.agrees
  rw [hphase] at hagrees
  obtain ⟨hunderway,hslot,hpaused,hvolume⟩ := hagrees
  rw [← hslot] at hunderway
  have hplain : ∀ slot ∈ snap.slot, Plain slot := by
    intro slot hmem
    exact h.plain slot (h.mem_accepted (hslot ▸ hmem))
  obtain ⟨t,sent,report,hplay,hcapacity,hnext⟩ :=
    hunderway.exists_play hpast hplain hpaused hvolume h.capacity elapsed now
  rw [hslot] at hnext
  simp only [proceed, hphase, hplay]
  refine ⟨_,Emission.taken sent,rfl,h.accepted,?_,hnext,h.plain,h.unpaused,h.unstopped,h.volume,
    hcapacity⟩
  exact (congrArg (· ++ Emission.taken sent) h.taken).trans (List.append_assoc _ _ _)

theorem finish_cases (t : Ticker Rat) (s : Scheduler Rat) {slot : Slot Rat}
    (h : s.current = some slot) (now : Nat) :
    ∃ gap s', t.finish s slot now = ({ t with gapUntil := gap },s') ∧ s'.slots = s.queue ∧
      s'.paused = false ∧ s'.stopped = s.stopped ∧ s'.volume = s.volume := by
  have hcurrent : s.isCurrent slot.id = true := by simp [Scheduler.isCurrent, h]
  unfold Ticker.finish
  rw [if_pos hcurrent]
  dsimp only
  split
  · exact ⟨_,_,rfl,Scheduler.slots_advanceQueue _,rfl,rfl,rfl⟩
  · exact ⟨_,_,rfl,rfl,rfl,rfl,rfl⟩

/-- Where a slot is done with, the queue moves up and its stream counts as whole. -/
theorem InOrder.report (h : InOrder b volume capacity past st finished part)
    {report : Report Rat} {now : Nat} (hphase : st.phase = .played report now) (clock : Nat) :
    ∃ next finished part, st.proceed b clock = some next ∧
      InOrder b volume capacity past next finished part := by
  have hagrees := h.agrees
  rw [hphase] at hagrees
  simp only [proceed, hphase]
  cases report with
  | nothing =>
    exact ⟨_,finished,part,rfl,h.accepted,h.taken,hagrees,h.plain,h.unpaused,h.unstopped,h.volume,
      h.capacity⟩
  | position beats =>
    exact ⟨_,finished,part,rfl,h.accepted,h.taken,hagrees,h.plain,h.unpaused,h.unstopped,h.volume,
      h.capacity⟩
  | finished slot =>
    obtain ⟨hcurrent,hplayer,rfl⟩ := hagrees
    have haccepted : st.accepted = (finished ++ [slot]) ++ st.scheduler.queue := by
      rw [h.accepted, Scheduler.slots, hcurrent, Option.toList_some, List.append_assoc]
    have htaken : st.taken =
        (finished ++ [slot]).flatMap (stream b volume capacity past) ++ [] := by
      rw [h.taken, List.flatMap_append, List.flatMap_singleton, List.append_nil]
    obtain ⟨gap,s,heq,hslots,hpaused,hstopped,hvolume⟩ :=
      finish_cases st.ticker st.scheduler hcurrent now
    simp only [Ticker.report, heq]
    refine ⟨_,finished ++ [slot],[],rfl,?_,htaken,?_,h.plain,hpaused,?_,?_,h.capacity⟩
    · exact haccepted.trans (congrArg ((finished ++ [slot]) ++ ·) hslots.symm)
    · rw [hplayer]
      exact .waiting _
    · exact hstopped.trans h.unstopped
    · exact hvolume.trans h.volume

/-! ## Whole runs -/

theorem InOrder.proceed (h : InOrder b volume capacity past st finished part)
    (hpast : ∀ slot : Slot Rat, slot.tune.durationBeats ≤ past slot) (clock : Nat) :
    ∃ next finished part, st.proceed b clock = some next ∧
      InOrder b volume capacity past next finished part := by
  cases hphase : st.phase with
  | idle =>
    obtain ⟨next,heq,hnext⟩ := h.copy hphase clock
    exact ⟨next,finished,part,heq,hnext⟩
  | copied snap elapsed now =>
    obtain ⟨next,more,heq,hnext⟩ := h.play hpast hphase clock
    exact ⟨next,finished,part ++ more,heq,hnext⟩
  | played report now => exact h.report hphase clock

theorem InOrder.run (h : InOrder b volume capacity past st finished part)
    (hpast : ∀ slot : Slot Rat, slot.tune.durationBeats ≤ past slot) (actions : List (Action Rat))
    (hplain : ∀ tune options, .enqueue tune options ∈ actions →
      options.looping = false ∧ ∀ n ∈ tune.events, 0 ≤ n.duration) :
    ∃ last finished part, run b actions st = some last ∧
      InOrder b volume capacity past last finished part := by
  -- the slots that are done and the part of the current one grow with the run
  induction actions generalizing st finished part with
  | nil => exact ⟨st,finished,part,rfl,h⟩
  | cons a rest ih =>
    have hrest : ∀ tune options, .enqueue tune options ∈ rest →
        options.looping = false ∧ ∀ n ∈ tune.events, 0 ≤ n.duration :=
      fun tune options hmem => hplain tune options (List.mem_cons_of_mem _ hmem)
    cases a with
    | enqueue tune options =>
      obtain ⟨honce,htimed⟩ := hplain tune options List.mem_cons_self
      exact ih (h.enqueue honce htimed) hrest
    | proceed clock =>
      obtain ⟨next,finished,part,heq,hnext⟩ := h.proceed hpast clock
      rw [Station.run, act, heq]
      exact ih hnext hrest

/-- What was taken is a start of what is to be taken of the current slot. -/
theorem Agrees.isPrefix {current : Option (Slot Rat)} {player : Option (Player Rat)}
    {phase : Phase Rat} (h : Agrees b volume capacity past current player part phase)
    (hpast : ∀ slot : Slot Rat, slot.tune.durationBeats ≤ past slot)
    (hplain : ∀ slot ∈ current, Plain slot) :
    part <+: current.toList.flatMap (stream b volume capacity past) := by
  have hunderway : Underway b volume capacity current player part →
      part <+: current.toList.flatMap (stream b volume capacity past) := by
    intro h
    cases h with
    | waiting current => exact List.nil_prefix
    | @playing slot p part hreached =>
      rw [Option.toList_some, List.flatMap_singleton]
      exact hreached.isPrefix b volume (hplain slot rfl).timed (hpast slot)
        (wholeStream_eq_stream b volume capacity past slot)
  cases phase with
  | idle => exact hunderway h
  | copied snap elapsed now => exact hunderway h.1
  | played report now =>
    cases report with
    | nothing => exact hunderway h
    | position beats => exact hunderway h
    | finished slot =>
      obtain ⟨rfl,_,rfl⟩ := h
      refine ⟨[],?_⟩
      rw [List.append_nil, Option.toList_some, List.flatMap_singleton]

/-- From an empty queue, whatever the order of requests and phases: playing never hangs, and the
backend has taken the whole streams of the slots that are done, in the order of queueing, and a
start of the stream of the current one. A stream is all that a new player sends from its start in
one move over the whole tune. -/
theorem run_taken (b : Backend) (volume : Float32) (capacity : Nat) (past : Slot Rat → Rat)
    (hpast : ∀ slot : Slot Rat, slot.tune.durationBeats ≤ past slot)
    (notes usualGap start : Nat) (tempo : Rat) (available : Bool) (actions : List (Action Rat))
    (hplain : ∀ tune options, .enqueue tune options ∈ actions →
      options.looping = false ∧ ∀ n ∈ tune.events, 0 ≤ n.duration) :
    ∃ (last : Station Rat) (finished : List (Slot Rat)) (part : List Message)
      (whole : Slot Rat → List Message),
      run b actions (new (.new notes volume tempo available) (.new usualGap capacity start)) =
          some last ∧
        last.accepted = finished ++ last.scheduler.slots ∧
        (∀ slot, Player.wholeStream b volume capacity (past slot) slot = some (whole slot)) ∧
        last.taken = finished.flatMap whole ++ part ∧
        part <+: last.scheduler.current.toList.flatMap whole := by
  obtain ⟨last,finished,part,hrun,hlast⟩ :=
    (inOrder_new notes usualGap start tempo available).run hpast actions hplain
  refine ⟨last,finished,part,stream b volume capacity past,hrun,hlast.accepted,
    wholeStream_eq_stream b volume capacity past,hlast.taken,?_⟩
  exact hlast.agrees.isPrefix hpast fun slot hslot => hlast.plain slot (hlast.mem_accepted hslot)

/-- Two tunes of a note each, the second of them queued while a tick is under way. -/
theorem run_taken_pair :
    ∃ (tune : Tune Rat) (past : Slot Rat → Rat) (last : Station Rat)
      (finished : List (Slot Rat)) (part : List Message) (whole : Slot Rat → List Message),
      tune.events.length = 1 ∧ (∀ slot : Slot Rat, slot.tune.durationBeats ≤ past slot) ∧
        run .accepting
          [.enqueue tune .once, .proceed 0, .enqueue tune .once, .proceed 0, .proceed 0,
            .proceed 900000000]
          (new (.new 8 1.0 1 true) (.new 0 4 0)) = some last ∧
        last.accepted = finished ++ last.scheduler.slots ∧
        (∀ slot, Player.wholeStream .accepting 1.0 4 (past slot) slot = some (whole slot)) ∧
        last.taken = finished.flatMap whole ++ part ∧
        part <+: last.scheduler.current.toList.flatMap whole := by
  let note : Note Rat := ⟨60,80,0,1,0,"1",[],false,none⟩
  let tune : Tune Rat := { Tune.empty (.initial 1) with events := [note] }
  have hplain : ∀ (t : Tune Rat) (options : SlotOptions), Action.enqueue t options ∈
      [.enqueue tune .once, .proceed 0, .enqueue tune .once, .proceed 0, .proceed 0,
        .proceed 900000000] → options.looping = false ∧ ∀ n ∈ t.events, 0 ≤ n.duration := by
    intro t options hmem
    have heq : t = tune ∧ options = .once := by simpa using hmem
    obtain ⟨rfl,rfl⟩ := heq
    exact ⟨rfl,by simp [tune, note]⟩
  obtain ⟨last,finished,part,whole,h⟩ := run_taken .accepting 1.0 4
    (fun slot => slot.tune.durationBeats) (fun _ => le_rfl) 8 0 0 1 true _ hplain
  exact ⟨tune,fun slot => slot.tune.durationBeats,last,finished,part,whole,rfl,fun _ => le_rfl,h⟩

end Station
end AbcTune
