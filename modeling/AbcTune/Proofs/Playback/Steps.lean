import AbcTune.Playback.Player

/-! # Steps of a player

What a single step does, whatever the arithmetic of positions: it releases the notes that end next
or sends the event that starts next. Where every step uses something up, a player comes to rest in
as many tries as it has notes to start and to release.
-/
namespace AbcTune.Player

variable {β : Type} [Beats β] (b : Backend) (volume : Float32)
variable {p q : Player β} {limit : β} {sent : List Emission}

/-! ## Sending an event -/

omit [Beats β] in
/-- A note that is added changes what sounds, and nothing else of the player. -/
theorem push_frame (n : ActiveNote β) :
    (p.push b n).1 = { p with active := (p.push b n).1.active } := by
  unfold push
  split
  · rfl
  · split <;> rfl

omit [Beats β] in
theorem push_upcoming (n : ActiveNote β) : (p.push b n).1.upcoming = p.upcoming := by
  rw [push_frame]

omit [Beats β] in
theorem length_push_le (n : ActiveNote β) :
    (p.push b n).1.active.length ≤ p.active.length + 1 := by
  unfold push
  split
  · simp
  · split
    · next h => simp [h]
    · next h => simp [h]

/-- An event that is sent changes what sounds, and nothing else of the player. -/
theorem sound_frame (event : Note β) :
    (p.sound b volume event).1 = { p with active := (p.sound b volume event).1.active } := by
  unfold sound
  dsimp only
  split
  · rfl
  · split
    · rfl
    · exact push_frame b _

theorem sound_upcoming (event : Note β) : (p.sound b volume event).1.upcoming = p.upcoming := by
  rw [sound_frame]

theorem length_sound_le (event : Note β) :
    (p.sound b volume event).1.active.length ≤ p.active.length + 1 := by
  have hrelease : (p.release b event).1.active.length ≤ p.active.length := by
    simp only [release]
    exact List.length_eraseP_le
  unfold sound
  dsimp only
  split
  · exact Nat.le_succ _
  · split
    · exact Nat.le_trans hrelease (Nat.le_succ _)
    · exact Nat.le_trans (length_push_le b _) (Nat.succ_le_succ hrelease)

/-! ## Single steps -/

/-- A step releases the notes that end next, where that is due and no event comes before it, or
sends the event that starts next, where no note ends before it or together with it. -/
theorem step_cases (h : p.step b volume limit = some (q,sent)) :
    (∃ beat, p.nextOff = some beat ∧ isBeyond limit (earliest p.nextOff p.nextOn) = false ∧
      offFirst p.nextOff p.nextOn = true ∧ p.releaseUntil b beat = (q,sent)) ∨
    ∃ event rest, p.upcoming = event :: rest ∧ offFirst p.nextOff p.nextOn = false ∧
      sound { p with upcoming := rest } b volume event = (q,sent) := by
  unfold step at h
  split at h
  · cases h
  · next hdue =>
    split at h
    · next hoff =>
      cases hn : p.nextOff with
      | none =>
        have hon : p.nextOn = none := by
          cases hon : p.nextOn with
          | none => rfl
          | some on => simp [hn, hon, offFirst] at hoff
        simp [hn, hon, earliest, isBeyond] at hdue
      | some beat =>
        rw [hn] at h hdue hoff
        exact Or.inl ⟨beat,rfl,Bool.eq_false_iff.mpr hdue,hoff,Option.some.inj h⟩
    · next hon =>
      cases hup : p.upcoming with
      | nil => simp [hup] at h
      | cons event rest =>
        rw [hup] at h
        exact Or.inr ⟨event,rest,rfl,Bool.eq_false_iff.mpr hon,Option.some.inj h⟩

/-- A step uses up events and notes that sound, and leaves alone everything else of the player. -/
theorem step_frame (h : p.step b volume limit = some (q,sent)) :
    q = { p with upcoming := q.upcoming, active := q.active } := by
  rcases step_cases b volume h with ⟨beat,_,_,_,hq⟩ | ⟨event,rest,_,_,hq⟩
  · cases hq
    rfl
  · have hsound := sound_frame b volume (p := { p with upcoming := rest }) event
    rw [hq] at hsound
    change q = _ at hsound
    rw [hsound]

theorem run_frame {fuel : Nat} (h : run b volume limit fuel p = some (q,sent)) :
    q = { p with upcoming := q.upcoming, active := q.active } := by
  induction fuel generalizing p sent with
  | zero => cases h
  | succ fuel ih =>
    rw [run] at h
    cases hstep : p.step b volume limit with
    | none =>
      rw [hstep] at h
      cases h
      rfl
    | some next =>
      rw [hstep] at h
      obtain ⟨⟨r,more⟩,hrest,heq⟩ := Option.map_eq_some_iff.mp h
      cases heq
      rw [ih hrest, step_frame b volume hstep]

theorem advance_slotId {beats : β} (h : p.advance b beats volume = some (q,sent)) :
    q.slotId = p.slotId := by
  obtain ⟨⟨r,more⟩,hrun,heq⟩ := Option.map_eq_some_iff.mp h
  cases heq
  rw [run_frame b volume hrun]

/-! ## Coming to rest -/

/-- Something is used up on the way from one player to another: the next event, for at most one
more note that sounds, or notes that sound, while the events stay. -/
inductive UsesUp (p q : Player β) : Prop where
  | event (e : Note β) (h : p.upcoming = e :: q.upcoming)
      (hactive : q.active.length ≤ p.active.length + 1)
  | release (h : q.upcoming = p.upcoming) (hsublist : q.active.Sublist p.active)
      (hlt : q.active.length < p.active.length)

omit [Beats β] in
theorem UsesUp.mostSteps_lt (h : UsesUp p q) : q.mostSteps < p.mostSteps := by
  unfold mostSteps
  cases h with
  | event e h hactive =>
    rw [h, List.length_cons]
    omega
  | release h _ hlt =>
    rw [h]
    omega

/-- A step uses something up, unless it is to release notes and none of them ends. -/
theorem usesUp_of_step (h : p.step b volume limit = some (q,sent))
    (hreleases : ∀ beat, p.nextOff = some beat →
      isBeyond limit (earliest p.nextOff p.nextOn) = false → offFirst p.nextOff p.nextOn = true →
      ∃ n ∈ p.active, endsBy beat n = true) : UsesUp p q := by
  rcases step_cases b volume h with ⟨beat,hoff,hdue,hfirst,hq⟩ | ⟨event,rest,hup,_,hq⟩
  · obtain ⟨n,hn,hends⟩ := hreleases beat hoff hdue hfirst
    cases hq
    refine .release rfl List.filter_sublist ?_
    exact List.length_filter_lt_length_iff_exists.mpr ⟨n,hn,by simp [hends]⟩
  · have hactive := length_sound_le b volume (p := { p with upcoming := rest }) event
    have hupcoming := sound_upcoming b volume (p := { p with upcoming := rest }) event
    rw [hq] at hactive hupcoming
    exact .event event (hup.trans (congrArg _ hupcoming.symm)) hactive

/-- With as many tries as there are notes to start and to release, and one more, a player comes to
rest. -/
theorem exists_run_of_usesUp
    (hstep : ∀ p q sent, p.step b volume limit = some (q,sent) → UsesUp p q)
    {fuel : Nat} (h : p.mostSteps < fuel) :
    ∃ q sent, run b volume limit fuel p = some (q,sent) := by
  induction fuel generalizing p with
  | zero => omega
  | succ fuel ih =>
    rw [run]
    cases hnext : p.step b volume limit with
    | none => exact ⟨p,[],rfl⟩
    | some next =>
      -- a step leaves fewer notes to start or to release, so there is a try left for each
      have hlt := (hstep p next.1 next.2 hnext).mostSteps_lt
      obtain ⟨q,more,hrest⟩ := ih (p := next.1) (by omega)
      exact ⟨q,next.2 ++ more,by simp [hrest]⟩

end AbcTune.Player
