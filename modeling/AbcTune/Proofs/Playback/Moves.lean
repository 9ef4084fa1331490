import Mathlib.Algebra.Order.BigOperators.Group.List
import AbcTune.Proofs.Playback.Sounding
import AbcTune.Proofs.Playback.Stream

/-! # Moves in parts

On exact beats only the way as a whole counts: a player that is moved in many parts sends what it
sends when it is moved at once, and comes to the same state.
-/
namespace AbcTune.Player

variable (b : Backend) (volume : Float32)
variable {p q r : Player Rat} {x y : Rat} {sent more : List Emission}

theorem later_zero (hx : 0 ≤ x) : Beats.later x 0.0 = x := by
  rw [Beats.later_eq_max, Beats.zero_eq, max_eq_left hx]

/-- A move is the run to where it goes, with the cursor put there. -/
theorem advance_eq_of_plays (hx : 0 ≤ x)
    (h : Plays b volume (p.position + x + beatSlack) p r sent) :
    p.advance b x volume = some ({ r with position := p.position + x },sent) := by
  obtain ⟨q,more,hmove⟩ := exists_advance b volume p x
  obtain ⟨hposition,w,hplays,hq⟩ := plays_of_advance b volume hmove
  rw [later_zero hx] at hposition
  rw [hposition] at hplays hq
  obtain ⟨rfl,rfl⟩ := h.unique b volume hplays
  rw [hmove, hq]

theorem plays_of_move (hx : 0 ≤ x) (hmove : p.advance b x volume = some (q,sent)) :
    q.position = p.position + x ∧
      ∃ r, Plays b volume (p.position + x + beatSlack) p r sent ∧
        q = { r with position := p.position + x } := by
  obtain ⟨hposition,r,hplays,hq⟩ := plays_of_advance b volume hmove
  rw [later_zero hx] at hposition
  rw [hposition] at hplays hq
  exact ⟨hposition,r,hplays,hq⟩

/-- A move after another one is a move over both. -/
theorem advance_of_advance (hx : 0 ≤ x) (hy : 0 ≤ y) (hfirst : p.advance b x volume = some (q,sent))
    (hsecond : q.advance b y volume = some (r,more)) :
    p.advance b (x + y) volume = some (r,sent ++ more) := by
  obtain ⟨hposition,u,hplays,hq⟩ := plays_of_move b volume hx hfirst
  obtain ⟨-,w,hmore,hr⟩ := plays_of_move b volume hy hsecond
  have hle : p.position + x + beatSlack ≤ q.position + y + beatSlack := by
    rw [hposition]
    linarith
  rw [hq] at hmore
  have hboth := hplays.resume b volume (by rw [hq] at hle; exact hle) hmore
  have hway : p.position + x + y = p.position + (x + y) := add_assoc _ _ _
  rw [hway] at hboth
  rw [advance_eq_of_plays b volume (add_nonneg hx hy) hboth, hr, hposition, hway]

/-- Moves one after another are one move over the whole way. -/
theorem calls_moves (x : Rat) (xs : List Rat) (hxs : ∀ z ∈ x :: xs, 0 ≤ z) (p : Player Rat) :
    p.calls b ((x :: xs).map (.advance · volume)) = p.advance b (x :: xs).sum volume := by
  induction xs generalizing x p with
  | nil =>
    obtain ⟨q,sent,hmove⟩ := exists_advance b volume p x
    simp [calls, call, hmove]
  | cons y xs ih =>
    have hrest : ∀ z ∈ y :: xs, 0 ≤ z := fun z hz => hxs z (List.mem_cons_of_mem x hz)
    obtain ⟨q,sent,hfirst⟩ := exists_advance b volume p x
    obtain ⟨r,more,hsecond⟩ := exists_advance b volume q (y :: xs).sum
    have hboth := advance_of_advance b volume (hxs x List.mem_cons_self) (List.sum_nonneg hrest)
      hfirst hsecond
    rw [List.sum_cons, hboth, List.map_cons, calls, call, hfirst, Option.bind_some]
    dsimp only
    rw [ih y hrest, hsecond, Option.map_some]

/-- On exact beats two moves that follow each other send what one move over both sends, in the same
order, and come to the same state. So however a way is parted into moves, at least one of them,
the messages and the last state are the same. -/
theorem advance_parted (p : Player Rat) :
    (∀ x y : Rat, 0 ≤ x → 0 ≤ y → ∃ q r sent more,
      p.advance b x volume = some (q,sent) ∧ q.advance b y volume = some (r,more) ∧
        p.advance b (x + y) volume = some (r,sent ++ more)) ∧
    ∀ xs ys : List Rat, xs ≠ [] → ys ≠ [] → (∀ x ∈ xs, 0 ≤ x) → (∀ y ∈ ys, 0 ≤ y) →
      xs.sum = ys.sum → ∃ q sent,
        p.calls b (xs.map (.advance · volume)) = some (q,sent) ∧
          p.calls b (ys.map (.advance · volume)) = some (q,sent) := by
  constructor
  · intro x y hx hy
    obtain ⟨q,sent,hfirst⟩ := exists_advance b volume p x
    obtain ⟨r,more,hsecond⟩ := exists_advance b volume q y
    exact ⟨q,r,sent,more,hfirst,hsecond,advance_of_advance b volume hx hy hfirst hsecond⟩
  · intro xs ys hxs hys hxs0 hys0 hsum
    obtain ⟨q,sent,hmove⟩ := exists_advance b volume p xs.sum
    refine ⟨q,sent,?_,?_⟩
    · cases xs with
      | nil => exact absurd rfl hxs
      | cons x xs => rw [calls_moves b volume x xs hxs0, hmove]
    · cases ys with
      | nil => exact absurd rfl hys
      | cons y ys => rw [calls_moves b volume y ys hys0, ← hsum, hmove]

/-- The parts may end between, at and just before the beats where something is due. -/
theorem advance_parted_overlapping :
    ∃ q sent,
      (new (overlapping Rat) 1).calls .accepting
          ([1/2, 3/2, 0, 1].map (.advance · 1)) = some (q,sent) ∧
        (new (overlapping Rat) 1).calls .accepting
          ([1 - 1/2000000000, 2 + 1/2000000000].map (.advance · 1)) = some (q,sent) ∧
        Emission.taken sent =
          [.noteOn 0 60 80, .noteOff 0 60, .noteOn 0 60 80, .noteOn 0 64 80, .noteOff 0 60] := by
  obtain ⟨q,sent,hleft,hright⟩ := (advance_parted .accepting 1 (new (overlapping Rat) 1)).2
    [1/2, 3/2, 0, 1] [1 - 1/2000000000, 2 + 1/2000000000] (by simp) (by simp) (by norm_num)
    (by norm_num) (by norm_num)
  refine ⟨q,sent,hleft,hright,?_⟩
  have hevaluated :
      ((new (overlapping Rat) 1).calls .accepting ([1/2, 3/2, 0, 1].map (.advance · 1))).map
          (fun result => Emission.taken result.2) =
        some [.noteOn 0 60 80, .noteOff 0 60, .noteOn 0 60 80, .noteOn 0 64 80, .noteOff 0 60] := by
    decide +kernel
  rw [hleft] at hevaluated
  exact Option.some.inj hevaluated

end AbcTune.Player
