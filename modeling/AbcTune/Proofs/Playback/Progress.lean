import AbcTune.Proofs.Beat.Order
import AbcTune.Proofs.Playback.Steps
import AbcTune.Tune.Reading

/-! # Moves that come to an end

A move takes steps until nothing is due up to its limit, and each step uses up an event or notes
that sound. That rests on the limit: where nothing is left to end, the next end lies at infinity,
and a limit that does not lie before infinity is passed by nothing, so a step goes on releasing
what is not there.
-/
namespace AbcTune.Player
open Number

variable (b : Backend) (volume : Float32)
variable {p q : Player Float} {limit : Float} {sent : List Emission}

/-! ## What falls due -/

theorem foldl_earliest_stop (active : List (ActiveNote Float)) {due : Float} (hdue : due ≤ due) :
    ∃ off, active.foldl (fun due n => earliest due (some n.stop)) (some due) = some off ∧
      off ≤ off ∧ (off = due ∨ ∃ n ∈ active, n.stop = off) := by
  induction active generalizing due with
  | nil => exact ⟨due,rfl,hdue,.inl rfl⟩
  | cons n active ih =>
    have hcons : (n :: active).foldl (fun due n => earliest due (some n.stop)) (some due) =
        active.foldl (fun due n => earliest due (some n.stop))
          (some (if n.stop < due then n.stop else due)) := by
      rw [List.foldl_cons, earliest, earlier_eq hdue]
    rw [hcons]
    split
    · next hlt =>
      obtain ⟨off,hoff,hself,hstop⟩ := ih (le_self_of_lt hlt)
      refine ⟨off,hoff,hself,.inr ?_⟩
      rcases hstop with hstop | ⟨m,hm,hstop⟩
      · exact ⟨n,List.mem_cons_self,hstop.symm⟩
      · exact ⟨m,List.mem_cons_of_mem _ hm,hstop⟩
    · obtain ⟨off,hoff,hself,hstop⟩ := ih hdue
      refine ⟨off,hoff,hself,hstop.imp_right ?_⟩
      rintro ⟨m,hm,hstop⟩
      exact ⟨m,List.mem_cons_of_mem _ hm,hstop⟩

/-- What ends next is a note that sounds, or it lies at infinity. -/
theorem exists_nextOff (p : Player Float) :
    ∃ off, p.nextOff = some off ∧ off ≤ off ∧ (off = top ∨ ∃ n ∈ p.active, n.stop = off) :=
  foldl_earliest_stop p.active top_le_top

theorem exists_nextOn (p : Player Float) :
    ∃ on, p.nextOn = some on ∧ (p.upcoming = [] → on = top) := by
  unfold nextOn
  cases p.upcoming with
  | nil => exact ⟨top,rfl,fun _ => rfl⟩
  | cons event rest => exact ⟨event.start,rfl,fun h => absurd h (by simp)⟩

/-! ## Steps -/

theorem endsBy_stop {n : ActiveNote Float} (h : n.stop ≤ n.stop) : endsBy n.stop n = true :=
  decide_eq_true (le_add_of_positive h (show (beatSlack : Float).toModel.unpack = _ from rfl))

/-- A limit before infinity: every step uses something up. -/
theorem usesUp_of_lt_top (hlimit : limit < top) (h : p.step b volume limit = some (q,sent)) :
    UsesUp p q := by
  refine usesUp_of_step b volume h fun beat hbeat hdue hfirst => ?_
  obtain ⟨_,hoff,hself,hstop⟩ := p.exists_nextOff
  obtain ⟨on,hon,-⟩ := p.exists_nextOn
  cases hbeat.symm.trans hoff
  rw [hoff, hon] at hdue hfirst
  have hearlier : Beats.earlier beat on = beat := by
    rw [earlier_eq hself, if_neg (not_lt_of_le (of_decide_eq_true hfirst))]
  -- the end that is due does not lie beyond the limit, so it is not the one at infinity
  have hnot : ¬limit < beat := hearlier ▸ of_decide_eq_false hdue
  rcases hstop with rfl | ⟨n,hn,rfl⟩
  · exact absurd hlimit hnot
  · exact ⟨n,hn,endsBy_stop hself⟩

/-- No limit but one before infinity: there is always a step to take. -/
theorem exists_step_of_not_lt_top (hlimit : ¬limit < top) (p : Player Float) :
    ∃ q sent, p.step b volume limit = some (q,sent) := by
  obtain ⟨off,hoff,hself,-⟩ := p.exists_nextOff
  obtain ⟨on,hon,hempty⟩ := p.exists_nextOn
  unfold step
  rw [hoff, hon]
  have hdue : ¬isBeyond limit (earliest (some off) (some on)) = true := by
    intro hbeyond
    exact hlimit (lt_top_of_lt (of_decide_eq_true hbeyond))
  rw [if_neg hdue]
  split
  · exact ⟨_,_,rfl⟩
  · next hfirst =>
    cases hup : p.upcoming with
    | nil =>
      rw [hempty hup] at hfirst
      exact absurd (decide_eq_true (le_top hself)) hfirst
    | cons event rest => exact ⟨_,_,rfl⟩

/-! ## Moves -/

/-- What a move of some beats plays up to. -/
def reach (p : Player Float) (beats : Float) : Float :=
  p.position + Beats.later beats 0.0 + beatSlack

theorem run_endless (hlimit : ¬limit < top) (fuel : Nat) (p : Player Float) :
    run b volume limit fuel p = none := by
  induction fuel generalizing p with
  | zero => rfl
  | succ fuel ih =>
    obtain ⟨q,sent,hstep⟩ := exists_step_of_not_lt_top b volume hlimit p
    rw [run, hstep]
    dsimp only
    rw [ih q]
    rfl

/-- A move comes to an end exactly if what it plays up to lies before infinity. Each of its steps
then uses up an event or notes that sound, so that as many steps are enough as it has notes to
start and to release; and otherwise no number of steps is. -/
theorem advance_ends_iff (p : Player Float) (beats : Float) :
    ((∃ q sent, p.advance b beats volume = some (q,sent)) ↔ p.reach beats < top) ∧
    (p.reach beats < top → ∀ q r sent, step q b volume (p.reach beats) = some (r,sent) →
      UsesUp q r) ∧
    (p.reach beats < top → ∀ fuel, 2 * p.upcoming.length + p.active.length + 1 ≤ fuel →
      ∃ q sent, run b volume (p.reach beats) fuel p = some (q,sent)) ∧
    (¬p.reach beats < top → ∀ fuel q, run b volume (p.reach beats) fuel q = none) := by
  have hends : p.reach beats < top → ∀ fuel, p.mostSteps < fuel →
      ∃ q sent, run b volume (p.reach beats) fuel p = some (q,sent) := fun hlimit _ hfuel =>
    exists_run_of_usesUp b volume (fun _ _ _ => usesUp_of_lt_top b volume hlimit) hfuel
  refine ⟨⟨?_,fun hlimit => ?_⟩,fun hlimit _ _ _ => usesUp_of_lt_top b volume hlimit,
    fun hlimit fuel hfuel => hends hlimit fuel hfuel,fun hlimit => run_endless b volume hlimit⟩
  · rintro ⟨q,sent,hmove⟩
    by_contra hlimit
    have hnone := run_endless b volume hlimit (p.mostSteps + 1) p
    unfold advance at hmove
    dsimp only at hmove
    have hreach : p.position + Beats.later beats 0.0 + beatSlack = p.reach beats := rfl
    rw [hreach, hnone] at hmove
    cases hmove
  · obtain ⟨q,sent,hrun⟩ := hends hlimit _ (Nat.lt_succ_self _)
    exact ⟨_,_,by unfold advance; exact congrArg (Option.map _) hrun⟩

/-- One note, with no end to the number of beats in a minute. -/
def infiniteTempo : Text := "X:1\nL:1/4\nQ:1/4=inf\nK:C\nC\n".toList

/-- A tune without problems that never plays: the beats of its first five milliseconds are
infinite. -/
theorem advance_endless_infiniteTempo :
    ∃ tune, Tune.read infiniteTempo = .ok tune ∧ tune.isComplete = true ∧
      ∀ (b : Backend) (volume : Float32) (capacity : Nat),
        let p := new ⟨1,tune,.once⟩ capacity
        let beats := beatsElapsed 5000000 tune.heading.tempo.bpm 1.0
        p.advance b beats volume = none ∧ ∀ fuel, run b volume (p.reach beats) fuel p = none := by
  have hevaluated : (Tune.read infiniteTempo).toOption.map (fun tune =>
      (tune.isComplete,decide ((0.0 : Float) +
        Beats.later (beatsElapsed 5000000 tune.heading.tempo.bpm 1.0) 0.0 + beatSlack < top))) =
      some (true,false) := by
    decide +kernel
  obtain ⟨tune,hread,hvalue⟩ := exists_of_toOption_map hevaluated
  obtain ⟨hcomplete,hlimit⟩ := Prod.mk.inj hvalue
  refine ⟨tune,hread,hcomplete,fun b volume capacity => ?_⟩
  have hendless := run_endless b volume (of_decide_eq_false hlimit)
  refine ⟨?_,fun fuel => hendless fuel _⟩
  unfold advance
  exact congrArg (Option.map _) (hendless _ _)

end AbcTune.Player
