import Mathlib.Data.Prod.Lex
import AbcTune.Proofs.Beat.Order

/-! # The latest of several doubles

From a number on, taking the later one of two doubles over and over ends at the latest of them all;
what is no number is passed over. So the order in which they come makes no difference, but for the
sign of a zero that comes behind a negative double.
-/
namespace AbcTune.Number
open Float.Model Float.Model.UnpackedFloat

variable {x y z : Float} {xs ys : List Float}

/-! ## A total order -/

/-- Doubles by their sign, then by their exponent, and then by their mantissa. -/
def rank : UnpackedFloat → ℤ ×ₗ ℤ ×ₗ ℤ
  | .infinity .negative => toLex (-2,toLex (0,0))
  | .finite .negative m e _ => toLex (-1,toLex (-e,-m))
  | .notANumber | .zero _ => toLex (0,toLex (0,0))
  | .finite .positive m e _ => toLex (1,toLex (e,m))
  | .infinity .positive => toLex (2,toLex (0,0))

theorem isLE_then_compare {m n : Nat} {e f : Int} :
    ((compare e f).then (compare m n)).isLE = true ↔ e < f ∨ e = f ∧ m ≤ n := by
  rcases lt_trichotomy e f with hlt | rfl | hgt
  · simp [compare_lt_iff_lt.mpr hlt, hlt]
  · simp [Nat.isLE_compare]
  · simp [compare_gt_iff_gt.mpr hgt, hgt.not_gt, hgt.ne']

theorem isLE_compare_iff {u v : UnpackedFloat} (hu : u ≠ .notANumber) (hv : v ≠ .notANumber) :
    (u.compare v).any (·.isLE) = true ↔ rank u ≤ rank v := by
  cases u with
  | notANumber => exact absurd rfl hu
  | infinity s =>
    cases v with
    | notANumber => exact absurd rfl hv
    | infinity t => cases s <;> cases t <;> decide
    | finite t => cases s <;> cases t <;> simp [UnpackedFloat.compare, rank, Prod.Lex.le_iff]
    | zero t => cases s <;> simp [UnpackedFloat.compare, rank, Prod.Lex.le_iff]
  | zero s =>
    cases v with
    | notANumber => exact absurd rfl hv
    | infinity t => cases t <;> simp [UnpackedFloat.compare, rank, Prod.Lex.le_iff]
    | finite t => cases t <;> simp [UnpackedFloat.compare, rank, Prod.Lex.le_iff]
    | zero t => simp [UnpackedFloat.compare, rank]
  | finite s m e hm =>
    cases v with
    | notANumber => exact absurd rfl hv
    | infinity t => cases s <;> cases t <;> simp [UnpackedFloat.compare, rank, Prod.Lex.le_iff]
    | zero t => cases s <;> simp [UnpackedFloat.compare, rank, Prod.Lex.le_iff]
    | finite t n f hn =>
      cases s with
      | positive =>
        cases t <;> simp [UnpackedFloat.compare, rank, Prod.Lex.le_iff, isLE_then_compare]
      | negative =>
        cases t with
        | positive => simp [UnpackedFloat.compare, rank, Prod.Lex.le_iff]
        | negative =>
          -- of two negative doubles the greater magnitude comes first
          have hswap : ((compare e f).then (compare m n)).swap =
              (compare f e).then (compare n m) := by
            rw [Ordering.swap_then, Int.compare_swap, Nat.compare_swap]
          rw [UnpackedFloat.compare, hswap, Option.any_some, isLE_then_compare]
          simp [rank, Prod.Lex.le_iff, eq_comm]

theorem le_iff_rank (hx : x ≤ x) (hy : y ≤ y) :
    x ≤ y ↔ rank x.toModel.unpack ≤ rank y.toModel.unpack :=
  decide_eq_true_iff.trans (isLE_compare_iff (le_self_iff.mp hx) (le_self_iff.mp hy))

theorem le_self_of_le (h : x ≤ y) : x ≤ x ∧ y ≤ y := by
  rw [le_self_iff, le_self_iff]
  rw [le_iff_compare] at h
  constructor <;> intro hu <;> rw [hu] at h
  · rcases h with h | h <;> cases h
  · cases hx : x.toModel.unpack with
    | infinity s => cases s <;> rcases h with h | h <;> rw [hx] at h <;> cases h
    | _ => rcases h with h | h <;> rw [hx] at h <;> cases h

protected theorem le_trans (hxy : x ≤ y) (hyz : y ≤ z) : x ≤ z := by
  obtain ⟨hx,hy⟩ := le_self_of_le hxy
  have hz := (le_self_of_le hyz).2
  rw [le_iff_rank hx hy] at hxy
  rw [le_iff_rank hy hz] at hyz
  exact (le_iff_rank hx hz).mpr (hxy.trans hyz)

protected theorem le_of_lt (h : x < y) : x ≤ y := le_iff_compare.mpr (.inl (lt_iff_compare.mp h))

protected theorem lt_of_lt_of_le (hxy : x < y) (hyz : y ≤ z) : x < z :=
  lt_of_not_le (le_self_of_le hyz).2 (le_self_of_lt hxy) fun hzx =>
    not_lt_of_le (Number.le_trans hyz hzx) hxy

theorem not_isNaN_iff : x.isNaN = false ↔ x ≤ x := by
  rw [le_self_iff]
  change x.toModel.unpack.isNaN = false ↔ _
  cases x.toModel.unpack <;> simp [UnpackedFloat.isNaN]

/-- Doubles that are not after one another are equal as numbers: the same, or two zeros. -/
theorem beq_of_le_of_le (hxy : x ≤ y) (hyx : y ≤ x) : (x == y) = true := by
  have heq : x.toModel.unpack.compare y.toModel.unpack = some .eq := by
    rcases le_iff_compare.mp hxy with hlt | heq
    · exact absurd (lt_iff_compare.mpr hlt) (not_lt_of_le hyx)
    · exact heq
  change (x.toModel.unpack.compare y.toModel.unpack == some .eq) = true
  rw [heq]
  rfl

/-! ## The later one, over and over -/

theorem later_eq (hx : x ≤ x) : Beats.later x y = if x < y then y else x := by
  unfold Beats.later
  rw [if_pos hx]

/-- The latest of a start and of some doubles: none of them lies after it, and where it is not the
start it is one of them. -/
structure IsLatest (x : Float) (ys : List Float) (latest : Float) : Prop where
  start : x ≤ latest
  others : ∀ y ∈ ys, y ≤ y → y ≤ latest
  origin : latest = x ∨ x < latest ∧ latest ∈ ys

theorem isLatest_foldl_later (hx : x ≤ x) (ys : List Float) :
    IsLatest x ys (ys.foldl Beats.later x) := by
  induction ys generalizing x with
  | nil => exact ⟨hx,fun y hy => absurd hy List.not_mem_nil,.inl rfl⟩
  | cons y ys ih =>
    rw [List.foldl_cons, later_eq hx]
    split
    · next hlt =>
      have hxy := Number.le_of_lt hlt
      obtain ⟨hstart,hothers,horigin⟩ := ih (le_self_of_le hxy).2
      refine ⟨Number.le_trans hxy hstart,List.forall_mem_cons.mpr ⟨fun _ => hstart,hothers⟩,?_⟩
      refine .inr ⟨Number.lt_of_lt_of_le hlt hstart,?_⟩
      rcases horigin with heq | ⟨-,hmem⟩
      · rw [heq]
        exact List.mem_cons_self
      · exact List.mem_cons_of_mem y hmem
    · next hnot =>
      obtain ⟨hstart,hothers,horigin⟩ := ih hx
      refine ⟨hstart,List.forall_mem_cons.mpr ⟨fun hy => ?_,hothers⟩,?_⟩
      · have hyx : y ≤ x := Decidable.byContradiction fun hyx => hnot (lt_of_not_le hy hx hyx)
        exact Number.le_trans hyx hstart
      · exact horigin.imp_right fun h => ⟨h.1,List.mem_cons_of_mem y h.2⟩

variable {a b : Float}

theorem IsLatest.perm (h : IsLatest x xs a) (hperm : xs.Perm ys) : IsLatest x ys a :=
  ⟨h.start,fun y hy => h.others y (hperm.mem_iff.mpr hy),h.origin.imp_right fun ⟨hlt,hmem⟩ =>
    ⟨hlt,hperm.mem_iff.mp hmem⟩⟩

/-- Of the same doubles no latest one lies before another. -/
theorem IsLatest.le (ha : IsLatest x ys a) (hb : IsLatest x ys b) : a ≤ b := by
  rcases ha.origin with rfl | ⟨-,hmem⟩
  · exact hb.start
  · exact hb.others a hmem (le_self_of_le ha.start).2

/-- The order in which doubles come makes no difference to the latest of them as a number. -/
theorem foldl_later_beq (hx : x ≤ x) (hperm : xs.Perm ys) :
    (xs.foldl Beats.later x == ys.foldl Beats.later x) = true := by
  have hxs := (isLatest_foldl_later hx xs).perm hperm
  have hys := isLatest_foldl_later hx ys
  exact beq_of_le_of_le (hxs.le hys) (hys.le hxs)

/-! ## Without negative zero -/

theorem eq_of_rank_eq {u v : UnpackedFloat} (hu : u ≠ .notANumber) (hv : v ≠ .notANumber)
    (hrank : rank u = rank v) : u = v ∨ ∃ s t, u = .zero s ∧ v = .zero t := by
  cases u with
  | notANumber => exact absurd rfl hu
  | infinity s =>
    cases v with
    | notANumber => exact absurd rfl hv
    | infinity t => cases s <;> cases t <;> simp [rank] at hrank ⊢
    | finite t => cases s <;> cases t <;> simp [rank] at hrank
    | zero t => cases s <;> simp [rank] at hrank
  | zero s =>
    cases v with
    | notANumber => exact absurd rfl hv
    | infinity t | finite t => cases t <;> simp [rank] at hrank
    | zero t => exact .inr ⟨s,t,rfl,rfl⟩
  | finite s m e hm =>
    cases v with
    | notANumber => exact absurd rfl hv
    | infinity t => cases s <;> cases t <;> simp [rank] at hrank
    | zero t => cases s <;> simp [rank] at hrank
    | finite t n f hn => cases s <;> cases t <;> simp_all [rank]

/-- Positive doubles that are equal as numbers are the same. -/
theorem eq_of_le_of_le (hx : 0.0 < x) (hxy : x ≤ y) (hyx : y ≤ x) : x = y := by
  obtain ⟨hx',hy'⟩ := le_self_of_le hxy
  have hrank := ((le_iff_rank hx' hy').mp hxy).antisymm ((le_iff_rank hy' hx').mp hyx)
  rcases eq_of_rank_eq (le_self_iff.mp hx') (le_self_iff.mp hy') hrank with hu | ⟨s,-,hu,-⟩
  · rw [← pack_unpack x, hu, pack_unpack]
  · rw [lt_iff_compare, unpack_zero, hu] at hx
    cases hx

/-- From zero on the latest of some doubles is the same in every order, to the last bit. -/
theorem foldl_later_perm (hx : 0.0 ≤ x) (hperm : xs.Perm ys) :
    xs.foldl Beats.later x = ys.foldl Beats.later x := by
  obtain ⟨hzero,hxx⟩ := le_self_of_le hx
  have hxs := (isLatest_foldl_later hxx xs).perm hperm
  have hys := isLatest_foldl_later hxx ys
  rcases hxs.origin with hstart | ⟨hlt,-⟩
  · rcases hys.origin with hstart' | ⟨hlt,-⟩
    · rw [hstart, hstart']
    · have hle := hys.le hxs
      rw [hstart] at hle
      exact absurd hlt (not_lt_of_le hle)
  · have hpos := lt_of_not_le (le_self_of_le hxs.start).2 hzero fun hle =>
      not_lt_of_le (Number.le_trans hle hx) hlt
    exact eq_of_le_of_le hpos (hxs.le hys) (hys.le hxs)

end AbcTune.Number
