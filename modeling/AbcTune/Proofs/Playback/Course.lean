import AbcTune.Playback.Ticker
import AbcTune.Proofs.Playback.Steps

/-! # The course of a tick

All that a tick can do between its copying and its report. It has copied the slot that it plays
already, and stays still or moves on in it; or it has copied another one, and leaves what it played
and enters that.
-/
namespace AbcTune.Ticker

variable {β : Type} [Beats β]

/-- The player of the slot that was copied moves on, as far as the time carries it. -/
structure Moved (b : Backend) (snap : Snapshot β) (elapsed : Nat) (t : Ticker β) (slot : Slot β)
    (p q : Player β) (sent : List Emission) : Prop where
  copied : snap.slot = some slot
  unpaused : snap.paused = false
  player : t.player = some p
  same : p.slotId = slot.id
  move : p.advance b (beatsElapsed elapsed slot.tune.heading.tempo.bpm snap.tempo) snap.volume =
    some (q,sent)

/-- What becomes of the ticker, what it sends and what it has to report. -/
inductive Course (b : Backend) (snap : Snapshot β) (elapsed : Nat) (t : Ticker β) :
    Ticker β → List Emission → Report β → Prop where
  | still (hsame : t.playing = snap.slot.map (·.id)) (h : snap.paused = true ∨ snap.slot = none) :
      Course b snap elapsed t t [] .nothing
  | move {slot : Slot β} {p q : Player β} {sent : List Emission}
      (h : Moved b snap elapsed t slot p q sent) (hfinished : q.isFinished = false) :
      Course b snap elapsed t { t with player := some q } sent (.position q.position)
  | loop {slot : Slot β} {p q : Player β} {sent : List Emission}
      (h : Moved b snap elapsed t slot p q sent) (hfinished : q.isFinished = true)
      (hlooping : slot.options.looping = true) :
      Course b snap elapsed t { t with player := some (q.rewind b).1 } (sent ++ (q.rewind b).2)
        (.position 0.0)
  | finish {slot : Slot β} {p q : Player β} {sent : List Emission}
      (h : Moved b snap elapsed t slot p q sent) (hfinished : q.isFinished = true)
      (hlooping : slot.options.looping = false) :
      Course b snap elapsed t { t with player := none } sent (.finished slot)
  | leave (hother : t.playing ≠ none) (hslot : snap.slot = none) :
      Course b snap elapsed t (t.leave b).1 (t.leave b).2 .nothing
  | enter {slot : Slot β} {next : Ticker β} {sent : List Emission}
      (hother : t.playing ≠ some slot.id) (hslot : snap.slot = some slot)
      (henter : (t.leave b).1.enter b slot snap.volume = some (next,sent)) :
      Course b snap elapsed t next ((t.leave b).2 ++ sent) (.position 0.0)

variable {b : Backend} {snap : Snapshot β} {elapsed : Nat} {t next : Ticker β}
variable {sent : List Emission} {report : Report β}

omit [Beats β] in
theorem leave_eq (t : Ticker β) (b : Backend) : (t.leave b).1 = { t with player := none } := by
  obtain ⟨player,gapUntil,lastTick,usualGap,capacity⟩ := t
  cases player <;> rfl

theorem play_leave (elapsed : Nat) (hother : t.playing ≠ none) (hslot : snap.slot = none) :
    t.play b snap elapsed = some ((t.leave b).1,(t.leave b).2,.nothing) := by
  unfold play
  rw [hslot, Option.map_none, if_neg hother]

theorem play_enter (elapsed : Nat) {slot : Slot β} (hother : t.playing ≠ some slot.id)
    (hslot : snap.slot = some slot) :
    t.play b snap elapsed = ((t.leave b).1.enter b slot snap.volume).map fun entered =>
      (entered.1,(t.leave b).2 ++ entered.2,.position 0.0) := by
  unfold play
  rw [hslot, Option.map_some, if_neg hother]

theorem Moved.slotId {slot : Slot β} {p q : Player β} (h : Moved b snap elapsed t slot p q sent) :
    q.slotId = slot.id :=
  (Player.advance_slotId b snap.volume h.move).trans h.same

theorem course_of_proceed {slot : Slot β} {p : Player β} (hslot : snap.slot = some slot)
    (hpaused : snap.paused = false) (hplayer : t.player = some p) (hid : p.slotId = slot.id)
    (h : t.proceed b slot p (beatsElapsed elapsed slot.tune.heading.tempo.bpm snap.tempo)
      snap.volume = some (next,sent,report)) :
    Course b snap elapsed t next sent report := by
  obtain ⟨⟨q,moved⟩,hmove,heq⟩ := Option.map_eq_some_iff.mp h
  have hmoved : Moved b snap elapsed t slot p q moved := ⟨hslot,hpaused,hplayer,hid,hmove⟩
  dsimp only at heq
  cases hfinished : q.isFinished with
  | false =>
    simp only [hfinished, Bool.not_false, if_true] at heq
    cases heq
    exact .move hmoved hfinished
  | true =>
    simp only [hfinished, Bool.not_true, Bool.false_eq_true, if_false] at heq
    cases hlooping : slot.options.looping with
    | false =>
      simp only [hlooping, Bool.false_eq_true, if_false] at heq
      cases heq
      exact .finish hmoved hfinished hlooping
    | true =>
      simp only [hlooping, if_true] at heq
      cases heq
      exact .loop hmoved hfinished hlooping

theorem course_of_play (h : t.play b snap elapsed = some (next,sent,report)) :
    Course b snap elapsed t next sent report := by
  by_cases hsame : t.playing = snap.slot.map (·.id)
  · rw [play, if_pos hsame] at h
    cases hslot : snap.slot with
    | none =>
      rw [hslot] at h
      cases h
      exact .still hsame (.inr hslot)
    | some slot =>
      rw [hslot] at hsame
      obtain ⟨p,hplayer,hid⟩ := Option.map_eq_some_iff.mp hsame
      simp only [hslot, hplayer] at h
      split at h
      · next hpaused =>
        cases h
        exact .still (hslot ▸ hsame) (.inl hpaused)
      · next hpaused =>
        exact course_of_proceed hslot (Bool.eq_false_iff.mpr hpaused) hplayer hid h
  · cases hslot : snap.slot with
    | none =>
      rw [hslot] at hsame
      rw [play_leave elapsed hsame hslot] at h
      cases h
      exact .leave hsame hslot
    | some slot =>
      rw [hslot] at hsame
      rw [play_enter elapsed hsame hslot] at h
      obtain ⟨⟨entered,more⟩,henter,heq⟩ := Option.map_eq_some_iff.mp h
      cases heq
      exact .enter hsame hslot henter

end AbcTune.Ticker
