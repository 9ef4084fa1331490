import AbcTune.Proofs.Beat.Within

/-! # Spans of beats

A span is a double from zero up to a power of two. Products of spans, and quotients by doubles that
are no less than one, are spans again, and whole numbers of few digits are exact.
-/
namespace AbcTune.Number
open Float.Model Float.Model.UnpackedFloat

variable {x y : Float} {m n : Nat} {e f : Int} {j k : Nat}

/-- A double from zero up to two to the power `k`. -/
structure Span (k : Nat) (x : Float) : Prop where
  nonneg : Nonneg x
  within : Within 1 k x

theorem Span.mono (h : Span k x) (hle : k ≤ j) : Span j x :=
  ⟨h.nonneg,h.within.mono (Nat.mul_le_mul_left 1 (Nat.pow_le_pow_right (by decide) hle))⟩

theorem Within.bits_ne (h : Within n k x) : bits x ≠ infinite := by
  intro hbits
  have hfinite := h.finite
  rcases unpack_cases hbits.le with ⟨-,hu⟩ | ⟨hzero,-⟩ | ⟨m,e,hm,hc,-,hu⟩
  · rw [isFinite_eq, hu] at hfinite
    cases hfinite
  · rw [hzero] at hbits
    exact absurd hbits (by decide)
  · have htop : x.toModel.unpack = .infinity .positive := by
      rw [← unpack_top]
      exact congrArg (fun x : Float => x.toModel.unpack) (eq_of_bits_eq (hbits.trans (by decide)))
    rw [htop] at hu
    cases hu

theorem Span.mul (hx : Span j x) (hy : Span k y) (hk : j + k ≤ 970) : Span (j + k) (x * y) :=
  ⟨hx.nonneg.mul hy.nonneg (fun h => absurd h hx.within.bits_ne)
    (fun h => absurd h hy.within.bits_ne),hx.within.mul hy.within (by decide) (by decide) hk⟩

theorem span_of_unpack {hm : 0 < m} (hu : x.toModel.unpack = .finite .positive m e hm)
    (hle : (m : ℚ) * 2 ^ e ≤ 2 ^ k) : Span k x := by
  refine ⟨(canonical_of_finite hu).1,by rw [isFinite_eq, hu]; rfl,?_⟩
  rw [hu, Nat.cast_one, one_mul]
  exact hle

theorem span_zero : Span k 0.0 := ⟨by decide,within_zero .positive⟩

theorem span_half : Span 0 0.5 := span_of_unpack (m := 2 ^ 52) (e := -53) rfl (by norm_num)

theorem span_one : Span 0 1.0 := span_of_unpack (m := 2 ^ 52) (e := -52) rfl (by norm_num)

theorem span_two : Span 1 2.0 := span_of_unpack (m := 2 ^ 52) (e := -51) rfl (by norm_num)

theorem size_two : size (2.0 : Float).toModel.unpack = 2 := by
  have hu : (2.0 : Float).toModel.unpack = .finite .positive (2 ^ 52) (-51) (by decide) := rfl
  rw [hu, size]
  norm_num

theorem Within.half (h : Within n k x) (hn : n ≠ 0) (hsmall : n < 2 ^ 53) (hk : k ≤ 970) :
    Within n k (x / 2.0) := by
  refine within_div h.finite span_two.within.finite (by rw [size_two]; norm_num) ?_ hn hsmall hk
  rw [size_two]
  exact h.le.trans (le_mul_of_one_le_right (by positivity) (by norm_num))

theorem span_four : Span 2 4.0 := span_of_unpack (m := 2 ^ 52) (e := -50) rfl (by norm_num)

/-! ## Order and magnitude -/

theorem bits_lt_of_lt (hx : Nonneg x) (hy : Nonneg y) (h : x < y) : bits x < bits y := by
  by_contra hle
  exact not_lt_of_le (hy.le hx (not_lt.mp hle)) h

theorem size_of_bits (hx : Nonneg x) (h : Canonical m e) (hm : m ≠ 0) (hbits : bits x = slot m e)
    (hslot : slot m e < infinite) : x.isFinite = true ∧ size x.toModel.unpack = m * 2 ^ e := by
  rcases unpack_cases hx with ⟨htop,-⟩ | ⟨hzero,-⟩ | ⟨m',e',hm',hc,hbits',hu⟩
  · omega
  · rw [hzero] at hbits
    unfold slot at hbits
    omega
  · refine ⟨by rw [isFinite_eq, hu]; rfl,?_⟩
    rw [hu]
    exact le_antisymm (hc.value_le h (hbits'.ge.trans hbits.le))
      (h.value_le hc (hbits.ge.trans hbits'.le))

theorem size_le_of_lt (hx : Nonneg x) (hy : Nonneg y) (hfinite : y.isFinite = true) (h : x < y) :
    size x.toModel.unpack ≤ size y.toModel.unpack ∧ size y.toModel.unpack ≠ 0 := by
  have hbits := bits_lt_of_lt hx hy h
  rcases unpack_cases hy with ⟨-,hu⟩ | ⟨hzero,-⟩ | ⟨m,e,hm,hc,hbits',hu⟩
  · rw [isFinite_eq, hu] at hfinite
    cases hfinite
  · omega
  · rw [hu]
    refine ⟨?_,(by positivity : (m : ℚ) * 2 ^ e ≠ 0)⟩
    rcases unpack_cases hx with ⟨htop,-⟩ | ⟨-,hu'⟩ | ⟨m',e',hm',hc',hbits'',hu'⟩
    · exact absurd (htop.ge.trans_lt hbits) (not_lt.mpr hy)
    · rw [hu']
      exact size_nonneg _
    · rw [hu']
      exact hc'.value_le hc (hbits''.ge.trans (hbits.le.trans hbits'.le))

theorem within_later (hx : Within n k x) (hy : Within n k y) : Within n k (Beats.later x y) := by
  unfold Beats.later
  split
  · exact hy
  · split
    · exact hx
    · exact hy

/-! ## Differences and quotients -/

/-- What is left of a span is a span. -/
theorem within_foldl_later {xs : List Float} (hx : Within n k x)
    (hxs : ∀ y ∈ xs, Within n k y) : Within n k (xs.foldl Beats.later x) := by
  induction xs generalizing x with
  | nil => exact hx
  | cons y rest ih =>
    obtain ⟨hy,hrest⟩ := List.forall_mem_cons.mp hxs
    exact ih (within_later hx hy) hrest

theorem Span.sub (hx : Span k x) (hy : Nonneg y) (hfinite : y.isFinite = true)
    (hle : size y.toModel.unpack ≤ size x.toModel.unpack) (hk : k ≤ 970) : Span k (x - y) := by
  have hsub : x - y =
      .ofModel (.pack (UnpackedFloat.sub .binary64 x.toModel.unpack y.toModel.unpack)) := rfl
  rcases unpack_cases hy with ⟨-,hu'⟩ | ⟨-,hu'⟩ | ⟨b,f,hb,-,-,hu'⟩
  · rw [isFinite_eq, hu'] at hfinite
    cases hfinite
  · have hx' : x - y = .ofModel (.pack x.toModel.unpack) := by
      rw [hsub, hu']
      rcases unpack_cases hx.nonneg with ⟨-,hu⟩ | ⟨-,hu⟩ | ⟨a,e,ha,-,-,hu⟩ <;> rw [hu] <;> rfl
    rw [hx', pack_unpack]
    exact hx
  · rcases unpack_cases hx.nonneg with ⟨htop,-⟩ | ⟨-,hu⟩ | ⟨a,e,ha,-,-,hu⟩
    · exact absurd htop hx.within.bits_ne
    · rw [hu, hu'] at hle
      exact absurd hle (not_le.mpr (by positivity : (0 : ℚ) < b * 2 ^ f))
    · have hbound := hx.within.le
      rw [hu] at hbound
      rw [hu, hu'] at hle
      rw [hsub, hu, hu']
      unfold UnpackedFloat.sub decreaseExponent
      dsimp only
      rw [Nat.shiftLeft_eq, Nat.shiftLeft_eq]
      have hp := value_align (m := a) (min_le_left e f)
      have hq := value_align (m := b) (min_le_right e f)
      generalize a * 2 ^ (e - min e f).toNat = p at hp ⊢
      generalize b * 2 ^ (f - min e f).toNat = q at hq ⊢
      have horder : q ≤ p := by
        have hvalue : (q : ℚ) * 2 ^ min e f ≤ p * 2 ^ min e f := by
          rw [hp, hq]
          exact hle
        exact_mod_cast le_of_mul_le_mul_right hvalue (by positivity)
      have hdifference : Sign.positive.apply p - Sign.positive.apply q = ((p - q : Nat) : Int) :=
        (Nat.cast_sub horder).symm
      rw [hdifference]
      constructor
      · rcases Nat.eq_zero_or_pos (p - q) with hzero | hpos
        · rw [hzero]
          exact bits_zero.trans_le (Nat.zero_le _)
        · rw [normalize_of_pos hpos]
          exact (bits_round_exact hpos.ne' _).trans_le (min_le_left _ _)
      · refine within_normalize ?_ (by decide) hk
        rw [Int.natAbs_natCast]
        calc ((p - q : Nat) : ℚ) * 2 ^ min e f ≤ p * 2 ^ min e f :=
              mul_le_mul_of_nonneg_right (by exact_mod_cast Nat.sub_le p q) (by positivity)
          _ = a * 2 ^ e := hp
          _ ≤ (1 : Nat) * 2 ^ k := hbound

theorem Nonneg.div (hx : Nonneg x) (hy : Nonneg y) (hfinite : x.isFinite = true)
    (hfinite' : y.isFinite = true) (hpos : size y.toModel.unpack ≠ 0) : Nonneg (x / y) := by
  have hquotient : x / y =
      .ofModel (.pack (UnpackedFloat.div .binary64 x.toModel.unpack y.toModel.unpack)) := rfl
  rcases unpack_cases hy with ⟨-,hu'⟩ | ⟨-,hu'⟩ | ⟨b,f,hb,-,-,hu'⟩
  · rw [isFinite_eq, hu'] at hfinite'
    cases hfinite'
  · rw [hu'] at hpos
    exact absurd rfl hpos
  · rcases unpack_cases hx with ⟨-,hu⟩ | ⟨-,hu⟩ | ⟨a,e,ha,-,-,hu⟩
    · rw [isFinite_eq, hu] at hfinite
      cases hfinite
    · rw [hquotient, hu, hu']
      exact bits_zero.trans_le (Nat.zero_le _)
    · rw [hquotient, hu, hu']
      unfold UnpackedFloat.div divCore
      dsimp only
      rw [Nat.shiftLeft_eq]
      have htarget := le_target_div ha hb (min_le_left _ _) (min_le_right (e - f)
        (Format.binary64.targetExponent (totalExponent a e - totalExponent b f)))
      exact (bits_round _ htarget).trans_le (min_le_left _ _)

/-- A quotient of which some power of two is known that the divisor is not too small for. -/
theorem span_div (hx : Nonneg x) (hy : Nonneg y) (hfinite : x.isFinite = true)
    (hfinite' : y.isFinite = true) (hpos : size y.toModel.unpack ≠ 0)
    (hle : size x.toModel.unpack ≤ 2 ^ k * size y.toModel.unpack) (hk : k ≤ 970) :
    Span k (x / y) :=
  ⟨hx.div hy hfinite hfinite' hpos,
    within_div hfinite hfinite' hpos (by simpa using hle) (by decide) (by decide) hk⟩

theorem Span.div (hx : Span k x) (hy : Nonneg y) (hfinite : y.isFinite = true)
    (hone : 1 ≤ size y.toModel.unpack) (hk : k ≤ 970) : Span k (x / y) := by
  have hpos : size y.toModel.unpack ≠ 0 := by
    intro hzero
    rw [hzero] at hone
    exact absurd hone (by norm_num)
  refine span_div hx.nonneg hy hx.within.finite hfinite hpos ?_ hk
  have hbound := hx.within.le
  rw [Nat.cast_one, one_mul] at hbound
  exact hbound.trans (le_mul_of_one_le_right (by positivity) hone)

/-! ## Whole numbers -/

/-- A double times one is itself. -/
theorem Nonneg.bits_mul_one (hx : Nonneg x) : bits (x * 1.0) = bits x := by
  have hone : (1.0 : Float).toModel.unpack = .finite .positive (2 ^ 52) (-52) (by decide) := by rfl
  have hpack := bits_pack_unpack x
  rw [toBits_mul, hone]
  rcases unpack_cases hx with ⟨-,hu⟩ | ⟨-,hu⟩ | ⟨m,e,hm,hc,hbits,hu⟩
  · rw [hu] at hpack ⊢
    exact hpack
  · rw [hu] at hpack ⊢
    exact hpack
  · have htarget : target (m * 2 ^ 52) (e + -52) = e :=
      (target_mul_pow hm.ne' e 52).trans (hc.target_eq hm.ne')
    have hrounded : rounded (m * 2 ^ 52) (e + -52) .exact = m := hc.rounded_eq hm.ne' 52
    rw [hu]
    change bits (.ofModel (.pack
      (roundWithAccuracy .binary64 .positive (m * 2 ^ 52) (e + -52) .exact))) = _
    rw [bits_round .exact (by omega), htarget, hrounded, ← hbits]
    exact min_eq_right hx

/-- Few digits are enough for a small whole number to be exact. -/
theorem size_ofNat {n : Nat} (hsmall : n < 2 ^ 53) : (Beats.ofNat n : Float).isFinite = true ∧
    size (Beats.ofNat n : Float).toModel.unpack = n := by
  rcases Nat.eq_zero_or_pos n with rfl | hpos
  · exact ⟨by decide,by decide⟩
  obtain ⟨m,e,hc,hm,he,hvalue,hslot⟩ := exists_canonical hpos.ne' hsmall (Nat.zero_le 970)
  obtain ⟨d,rfl⟩ : ∃ d : Nat, e = 0 - d := ⟨(-e).toNat,by omega⟩
  have hdigits : m = n * 2 ^ (0 - (0 - d : Int)).toNat :=
    (value_eq_iff (by omega)).mp (by simpa using hvalue.symm)
  rw [sub_sub_cancel, Int.toNat_natCast] at hdigits
  have htarget : target n 0 = 0 - d := by
    rw [← target_mul_pow hpos.ne' 0 d, ← hdigits, hc.target_eq hm]
  have hrounded : rounded m (0 - d) .exact = m := by simpa using hc.rounded_eq hm 0
  have hround : bits (.ofModel (.pack (UnpackedFloat.normalize .binary64 n 0 .positive))) =
      slot m (0 - d) := by
    rw [normalize_of_pos hpos, bits_round_exact hpos.ne', htarget, sub_sub_cancel,
      Int.toNat_natCast, ← hdigits, hrounded, min_eq_right hslot.le]
  have hnonneg : Nonneg (.ofModel (.pack (UnpackedFloat.normalize .binary64 n 0 .positive))) :=
    hround.trans_le hslot.le
  have hbits : bits (Beats.ofNat n : Float) = slot m (0 - d) := by
    rw [ofNat_eq_of_lt hsmall, hnonneg.bits_mul_one, hround]
  obtain ⟨hfinite,hsize⟩ := size_of_bits (hbits.trans_le hslot.le) hc hm hbits hslot
  exact ⟨hfinite,by rw [hsize, ← hvalue]; simp⟩

theorem span_ofNat {n : Nat} (hle : n ≤ 2 ^ k) (hk : k ≤ 52) : Span k (Beats.ofNat n : Float) := by
  have hsmall : n < 2 ^ 53 :=
    hle.trans_lt (Nat.pow_lt_pow_right (by decide) (Nat.lt_succ_of_le hk))
  obtain ⟨hfinite,hsize⟩ := size_ofNat hsmall
  refine ⟨nonneg_ofNat n,hfinite,?_⟩
  rw [hsize, Nat.cast_one, one_mul]
  exact_mod_cast hle

theorem bounds_sum {xs : List Float} (hxs : ∀ x ∈ xs, Span k x) (hsmall : xs.length < 2 ^ 53)
    (hk : k ≤ 970) : Nonneg (Beats.sum xs) ∧ Within xs.length k (Beats.sum xs) := by
  have hfold (sofar : Float) (n : Nat) (hsofar : Nonneg sofar) (hn : Within n k sofar)
      (hall : n + xs.length < 2 ^ 53) :
      Nonneg (xs.foldl (· + ·) sofar) ∧ Within (n + xs.length) k (xs.foldl (· + ·) sofar) := by
    clear hsmall
    induction xs generalizing sofar n with
    | nil => exact ⟨hsofar,hn⟩
    | cons x rest ih =>
      obtain ⟨hx,hrest⟩ := List.forall_mem_cons.mp hxs
      rw [List.length_cons, ← Nat.add_assoc, Nat.add_right_comm] at hall ⊢
      exact ih hrest (sofar + x) (n + 1) (hsofar.add hx.nonneg).2
        (hn.add hx.within (by omega) hk) hall
  have hsum := hfold 0.0 0 (span_zero (k := k)).nonneg (within_zero .positive) (by omega)
  rwa [Nat.zero_add] at hsum

end AbcTune.Number
