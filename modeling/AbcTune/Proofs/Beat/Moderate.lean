import AbcTune.Proofs.Beat.Span

/-! # Moderate numbers

A few products and quotients of numbers that are neither tiny nor huge do not leave the range of
doubles on either side.
-/
namespace AbcTune.Number

variable {x y : Float} {a b c d : Int}

/-- Neither tiny nor huge. -/
def isModerate (x : Float) : Bool := decide (1e-30 < x) && decide (x < 1e30)

/-- A number that lengths and speeds may be multiplied and divided by. -/
def FinitePositive (x : Float) : Prop := x.isFinite = true ∧ (0.0 : Float) < x

theorem nonneg_of_lt (hx : Nonneg x) (h : x < y) : Nonneg y := by
  by_contra hy
  rw [lt_iff_compare] at h
  rcases unpack_of_not_nonneg hy with hu' | hu' | hu' | ⟨n,f,hn,hu'⟩ <;>
    rcases unpack_cases hx with ⟨-,hu⟩ | ⟨-,hu⟩ | ⟨m,e,hm,-,-,hu⟩ <;>
    rw [hu, hu'] at h <;> cases h

theorem Magnitude.mono (h : Magnitude x a b) (hc : -1074 < c) (hca : c ≤ a) (hbd : b ≤ d)
    (hd : d ≤ 969) : Magnitude x c d := by
  have horder := h.order
  refine ⟨hc,hca.trans (horder.trans hbd),hd,le_trans ?_ h.low,h.high.trans ?_⟩ <;>
    unfold slot <;> omega

theorem Magnitude.finitePositive (h : Magnitude x a b) : FinitePositive x := by
  obtain ⟨m,e,hm,-,-,-,-,hu⟩ := h.unpack
  constructor
  · rw [isFinite_eq, hu]
    rfl
  · rw [lt_iff_compare, unpack_zero, hu]
    rfl

theorem span_moderate : Span 100 1e30 := by
  have hnonneg : Nonneg 1e30 := by decide +kernel
  obtain ⟨hfinite,hsize⟩ := size_of_bits (m := 7105427357601002) (e := 47) hnonneg
    ⟨by decide,by decide,.inr (by decide)⟩ (by decide) (by decide +kernel) (by decide)
  refine ⟨hnonneg,hfinite,?_⟩
  rw [hsize]
  norm_num

theorem magnitude_of_isModerate (h : isModerate x = true) : Magnitude x (-152) 47 := by
  obtain ⟨hlow,hhigh⟩ := Bool.and_eq_true_iff.mp h
  have hlow := of_decide_eq_true hlow
  have hleast : Nonneg 1e-30 := by decide +kernel
  have hx := nonneg_of_lt hleast hlow
  refine ⟨by decide,by decide,by decide,?_,?_⟩
  · exact le_trans (by decide +kernel) (bits_lt_of_lt hleast hx hlow).le
  · exact (bits_lt_of_lt hx span_moderate.nonneg (of_decide_eq_true hhigh)).le.trans
      (by decide +kernel)

theorem span_of_isModerate (h : isModerate x = true) : Span 100 x := by
  have hmagnitude := magnitude_of_isModerate h
  have hlt : x < 1e30 := of_decide_eq_true (Bool.and_eq_true_iff.mp h).2
  have hsize := size_le_of_lt hmagnitude.nonneg span_moderate.nonneg span_moderate.within.finite hlt
  exact ⟨hmagnitude.nonneg,hmagnitude.finitePositive.1,hsize.1.trans span_moderate.within.le⟩

end AbcTune.Number
