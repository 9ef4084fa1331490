import Mathlib.Algebra.BigOperators.Group.List.Basic
import Mathlib.Algebra.Order.Ring.Rat
import Mathlib.Order.Bounds.Basic
import Mathlib.Tactic.NormNum
import AbcTune.Beat

/-! # Exact beats

Among rational beats every two can be compared, and the later and the earlier one are the maximum
and the minimum.
-/
namespace AbcTune.Beats

theorem zero_eq : (0.0 : Rat) = 0 := by norm_num

theorem sum_eq_sum (xs : List Rat) : Beats.sum xs = xs.sum := by
  rw [Beats.sum, zero_eq]
  exact List.sum_eq_foldl.symm

theorem earlier_eq_min (x y : Rat) : Beats.earlier x y = min x y := by
  unfold Beats.earlier
  split
  · next h => exact (min_eq_right h.le).symm
  · next h => rw [if_pos le_rfl, min_eq_left (not_lt.mp h)]

theorem later_eq_max (x y : Rat) : Beats.later x y = max x y := by
  unfold Beats.later
  split
  · next h => exact (max_eq_right h.le).symm
  · next h => rw [if_pos le_rfl, max_eq_left (not_lt.mp h)]

theorem zero_le_later (x : Rat) : 0 ≤ Beats.later x 0.0 := by
  rw [later_eq_max, zero_eq]
  exact le_max_right x 0

/-- The latest of some beats is one of them, and none of them is later. -/
theorem isGreatest_foldl_later (init : Rat) (xs : List Rat) :
    IsGreatest {x | x = init ∨ x ∈ xs} (xs.foldl Beats.later init) := by
  induction xs generalizing init with
  | nil => simp
  | cons y xs ih =>
    rw [List.foldl_cons, later_eq_max]
    obtain ⟨hmem,hle⟩ := ih (max init y)
    obtain ⟨hinit,hy⟩ := max_le_iff.mp (hle (.inl rfl))
    constructor
    · rcases hmem with hmem | hmem
      · rcases max_choice init y with hmax | hmax
        · exact .inl (hmem.trans hmax)
        · exact .inr (List.mem_cons.mpr (.inl (hmem.trans hmax)))
      · exact .inr (List.mem_cons_of_mem _ hmem)
    · rintro x (rfl | hx)
      · exact hinit
      · rcases List.mem_cons.mp hx with rfl | hx
        · exact hy
        · exact hle (.inr hx)

end AbcTune.Beats
