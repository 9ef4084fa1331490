import AbcTune.Proofs.Beat.Double

/-! # Doubles in their order

Doubles compare as the numbers they stand for, and what is no number compares with nothing. Nothing
lies beyond positive infinity, and adding a positive double to a number never goes back, on either
side of zero.
-/
namespace AbcTune.Number
open Float.Model Float.Model.UnpackedFloat

variable {x y z : Float}

/-- Positive infinity. -/
def top : Float := 1.0 / 0.0

theorem unpack_top : top.toModel.unpack = .infinity .positive := by rfl

theorem le_iff_compare : x ≤ y ↔
    x.toModel.unpack.compare y.toModel.unpack = some .lt ∨
      x.toModel.unpack.compare y.toModel.unpack = some .eq := by
  have hle : x ≤ y ↔ (x.toModel.unpack.compare y.toModel.unpack).any (·.isLE) = true :=
    decide_eq_true_iff
  rw [hle]
  cases x.toModel.unpack.compare y.toModel.unpack with
  | none => simp
  | some o => cases o <;> simp

/-! ## Numbers -/

/-- Whatever compares with something is a number. -/
theorem le_self_iff : x ≤ x ↔ x.toModel.unpack ≠ .notANumber := by
  rw [le_iff_compare]
  cases x.toModel.unpack with
  | notANumber => simp [UnpackedFloat.compare]
  | infinity s => cases s <;> simp [UnpackedFloat.compare, compare]
  | zero s => simp [UnpackedFloat.compare]
  | finite s m e hm => cases s <;> simp [UnpackedFloat.compare]

/-- Two doubles compare the other way round the other way. -/
theorem compare_swap (u v : UnpackedFloat) : v.compare u = (u.compare v).map Ordering.swap := by
  cases u with
  | notANumber => cases v <;> rfl
  | infinity s =>
    cases v with
    | infinity t => cases s <;> cases t <;> rfl
    | _ => cases s <;> rfl
  | zero s =>
    cases v with
    | infinity t => cases t <;> rfl
    | finite t n f hn => cases t <;> rfl
    | _ => rfl
  | finite s m e hm =>
    cases v with
    | infinity t => cases s <;> cases t <;> rfl
    | finite t n f hn =>
      cases s <;> cases t <;>
        simp [UnpackedFloat.compare, Ordering.swap_then, Int.compare_swap, Nat.compare_swap]
    | _ => cases s <;> rfl

theorem not_lt_of_le (h : x ≤ y) : ¬y < x := by
  rw [lt_iff_compare, compare_swap x.toModel.unpack]
  rcases le_iff_compare.mp h with hxy | hxy <;> rw [hxy] <;> decide

theorem le_self_of_lt (h : x < y) : x ≤ x := by
  rw [lt_iff_compare] at h
  rw [le_self_iff]
  intro hu
  rw [hu] at h
  cases h

theorem isSome_compare {u v : UnpackedFloat} (hu : u ≠ .notANumber) (hv : v ≠ .notANumber) :
    (u.compare v).isSome = true := by
  fun_cases UnpackedFloat.compare u v <;> first | rfl | contradiction

theorem lt_of_not_le (hx : x ≤ x) (hy : y ≤ y) (h : ¬x ≤ y) : y < x := by
  obtain ⟨o,ho⟩ := Option.isSome_iff_exists.mp
    (isSome_compare (le_self_iff.mp hx) (le_self_iff.mp hy))
  rw [le_iff_compare, ho] at h
  rw [lt_iff_compare, compare_swap x.toModel.unpack, ho]
  cases o <;> simp at h ⊢

/-! ## Positive infinity -/

theorem lt_top_iff : x < top ↔
    x.toModel.unpack ≠ .notANumber ∧ x.toModel.unpack ≠ .infinity .positive := by
  rw [lt_iff_compare, unpack_top]
  cases x.toModel.unpack with
  | notANumber => simp [UnpackedFloat.compare]
  | infinity s => cases s <;> simp [UnpackedFloat.compare, compare]
  | zero s => simp [UnpackedFloat.compare]
  | finite s m e hm => cases s <;> simp [UnpackedFloat.compare]

theorem le_top (h : x ≤ x) : x ≤ top := by
  by_cases hx : x.toModel.unpack = .infinity .positive
  · rw [le_iff_compare, hx, unpack_top]
    exact .inr rfl
  · exact le_iff_compare.mpr (.inl (lt_iff_compare.mp (lt_top_iff.mpr ⟨le_self_iff.mp h,hx⟩)))

theorem top_le_top : top ≤ top := by decide

theorem lt_top_of_lt (h : x < y) : x < top := by
  refine lt_top_iff.mpr ⟨le_self_iff.mp (le_self_of_lt h),fun hu => ?_⟩
  rw [lt_iff_compare, hu] at h
  cases hy : y.toModel.unpack with
  | infinity s => rw [hy] at h; cases s <;> cases h
  | _ => rw [hy] at h; cases h

theorem lt_top_of_le (h : x ≤ y) (hy : y < top) : x < top := by
  rcases le_iff_compare.mp h with hlt | heq
  · exact lt_top_of_lt (lt_iff_compare.mpr hlt)
  · refine lt_top_iff.mpr ⟨fun hu => ?_,fun hu => ?_⟩ <;> rw [hu] at heq
    · cases heq
    · rw [lt_top_iff] at hy
      revert heq hy
      cases y.toModel.unpack with
      | infinity s => cases s <;> simp [UnpackedFloat.compare, compare]
      | _ => simp [UnpackedFloat.compare]

/-! ## The earlier of two doubles -/

theorem earlier_eq (hx : x ≤ x) : Beats.earlier x y = if y < x then y else x := by
  unfold Beats.earlier
  rw [if_pos hx]

/-! ## Negation -/

theorem compare_neg (u v : UnpackedFloat) : u.neg.compare v.neg = v.compare u := by
  rw [compare_swap u]
  cases u with
  | notANumber => cases v <;> rfl
  | infinity s =>
    cases v with
    | infinity t => cases s <;> cases t <;> rfl
    | _ => cases s <;> rfl
  | zero s =>
    cases v with
    | infinity t => cases t <;> rfl
    | finite t n f hn => cases t <;> rfl
    | _ => rfl
  | finite s m e hm =>
    cases v with
    | infinity t => cases s <;> cases t <;> rfl
    | finite t n f hn =>
      cases s <;> cases t <;> simp [UnpackedFloat.compare, UnpackedFloat.neg, Neg.neg]
    | _ => cases s <;> rfl

theorem unpack_components_neg (s : Sign) (exponent : BitVec 11) (mantissa : BitVec 52) :
    UnpackedFloat.unpack .binary64 (packComponents .binary64 (-s) exponent mantissa) =
      (UnpackedFloat.unpack .binary64 (packComponents .binary64 s exponent mantissa)).neg := by
  unfold UnpackedFloat.unpack
  simp only [unpackSign_packComponents, unpackExponent_packComponents,
    unpackMantissa_packComponents, Sign.ofBitVec_toBitVec]
  split
  · split <;> rfl
  · split
    · split <;> rfl
    · rfl

theorem unpack_pack_neg (u : UnpackedFloat) :
    (Float.Model.pack u.neg).unpack = (Float.Model.pack u).unpack.neg := by
  change UnpackedFloat.unpack .binary64 (UnpackedFloat.pack .binary64 u.neg) =
    (UnpackedFloat.unpack .binary64 (UnpackedFloat.pack .binary64 u)).neg
  cases u with
  | notANumber =>
    have hnan : UnpackedFloat.unpack .binary64 (UnpackedFloat.pack .binary64 .notANumber) =
      .notANumber := unpack_packedNaN
    change UnpackedFloat.unpack .binary64 (UnpackedFloat.pack .binary64 .notANumber) = _
    rw [hnan]
    rfl
  | infinity s => exact unpack_components_neg s _ _
  | zero s => exact unpack_components_neg s _ _
  | finite s m e hm =>
    unfold UnpackedFloat.pack UnpackedFloat.neg
    dsimp only
    split
    · exact unpack_components_neg s _ _
    · split <;> exact unpack_components_neg s _ _

theorem eq_of_bits_eq (h : bits x = bits y) : x = y :=
  Float.toBits_inj.mp (UInt64.toNat_inj.mp h)

theorem pack_unpack (x : Float) : .ofModel (.pack x.toModel.unpack) = x :=
  eq_of_bits_eq (bits_pack_unpack x)

theorem unpack_neg (x : Float) : (-x).toModel.unpack = x.toModel.unpack.neg := by
  change (Float.Model.pack x.toModel.unpack.neg).unpack = _
  rw [unpack_pack_neg]
  exact congrArg (fun x : Float => x.toModel.unpack.neg) (pack_unpack x)

theorem le_of_neg_le (h : -y ≤ -x) : x ≤ y := by
  rwa [le_iff_compare, unpack_neg, unpack_neg, compare_neg, ← le_iff_compare] at h

/-! ## Bits and order -/

theorem compare_slot {m n : Nat} {e f : Int} (h : Canonical m e) (h' : Canonical n f)
    (hle : slot m e ≤ slot n f) :
    (compare e f).then (compare m n) = .lt ∨ (compare e f).then (compare m n) = .eq := by
  have hm := h.small
  have he := h.least
  have hn := h'.small
  have hf := h'.least
  unfold slot at hle
  rcases lt_trichotomy e f with hlt | rfl | hgt
  · rw [compare_lt_iff_lt.mpr hlt]
    exact .inl rfl
  · rw [compare_eq_iff_eq.mpr rfl]
    rcases (show m ≤ n by omega).lt_or_eq with hlt | rfl
    · exact .inl (compare_lt_iff_lt.mpr hlt)
    · exact .inr (compare_eq_iff_eq.mpr rfl)
  · have := h.full
    omega

theorem Nonneg.le (hx : Nonneg x) (hy : Nonneg y) (h : bits x ≤ bits y) : x ≤ y := by
  rw [le_iff_compare]
  rcases unpack_cases hx with ⟨hbits,hu⟩ | ⟨hbits,hu⟩ | ⟨m,e,hm,hc,hbits,hu⟩ <;>
    rcases unpack_cases hy with ⟨hbits',hu'⟩ | ⟨hbits',hu'⟩ | ⟨m',e',hm',hc',hbits',hu'⟩
  case inl.inr.inl => exact absurd (hbits.ge.trans (h.trans hbits'.le)) (by decide)
  case inl.inr.inr =>
    have hxy : x = y := eq_of_bits_eq (h.antisymm (hy.trans hbits.ge))
    rw [hxy, hu'] at hu
    cases hu
  case inr.inr.inr.inl =>
    rw [hbits, hbits'] at h
    unfold slot at h
    omega
  case inr.inr.inr.inr =>
    rw [hbits, hbits'] at h
    simpa [hu, hu', UnpackedFloat.compare] using compare_slot hc hc' h
  all_goals
    rw [hu, hu']
    first
    | exact .inl rfl
    | exact .inr rfl

/-! ## Sums -/

/-- Rounding goes above no double that the exact number is below. -/
theorem rounded_le_slot {m₀ m : Nat} {e₀ e : Int} (a : Accuracy) (h : Canonical m₀ e₀)
    (hexponent : e ≤ e₀) (hlt : m < m₀ * 2 ^ (e₀ - e).toNat) :
    slot (rounded m e a) (target m e) ≤ slot m₀ e₀ := by
  have hsmall := h.small
  have hleast := h.least
  have hlog : m.log2 < 53 + (e₀ - e).toNat := by
    rcases Nat.eq_zero_or_pos m with rfl | hpos
    · rw [Nat.log2_zero]
      omega
    · rw [Nat.log2_lt hpos.ne', Nat.pow_add]
      exact hlt.trans (Nat.mul_lt_mul_of_pos_right hsmall (by positivity))
  have htarget : target m e ≤ e₀ := max_le (by omega) hleast
  rcases htarget.lt_or_eq with hbelow | heq
  · have hfirst : -1074 ≤ target m e := le_max_right _ _
    have hfull := h.full.resolve_left (by omega)
    have hrounded := rounded_le_full m e a
    unfold slot
    omega
  · have hfloor : m / 2 ^ (target m e - e).toNat < m₀ := by
      rw [heq, Nat.div_lt_iff_lt_mul (by positivity)]
      exact hlt
    have hrounded := rounded_le m e a
    rw [heq] at hfloor hrounded ⊢
    exact Nat.add_le_add_left (hrounded.trans hfloor) _

theorem bits_round_le {m₀ m : Nat} {e₀ e : Int} (hm : m ≠ 0) (h : Canonical m₀ e₀)
    (hexponent : e ≤ e₀) (hlt : m < m₀ * 2 ^ (e₀ - e).toNat) :
    bits (.ofModel (.pack (UnpackedFloat.round .binary64 .positive m e))) ≤ slot m₀ e₀ := by
  rw [bits_round_exact hm]
  generalize hmore : (e - target m e).toNat = n
  have htarget := target_mul_pow hm e n
  have hshift : (e₀ - (e - n)).toNat = (e₀ - e).toNat + n := by omega
  rw [← htarget]
  refine (min_le_right _ _).trans
    (rounded_le_slot _ h (by omega) ?_)
  rw [hshift, Nat.pow_add, ← Nat.mul_assoc]
  exact Nat.mul_lt_mul_of_pos_right hlt (by positivity)

theorem roundWithAccuracy_neg (m : Nat) (e : Int) (a : Accuracy) :
    roundWithAccuracy .binary64 .negative m e a =
      (roundWithAccuracy .binary64 .positive m e a).neg := by
  unfold roundWithAccuracy
  dsimp only
  split <;> rfl

theorem round_neg (m : Nat) (e : Int) :
    UnpackedFloat.round .binary64 .negative m e =
      (UnpackedFloat.round .binary64 .positive m e).neg :=
  roundWithAccuracy_neg _ _ _

theorem neg_neg (u : UnpackedFloat) : u.neg.neg = u := by
  cases u with
  | notANumber => rfl
  | infinity s => cases s <;> rfl
  | zero s => cases s <;> rfl
  | finite s m e hm => cases s <;> rfl

theorem neg_pack_neg (u : UnpackedFloat) :
    -(Float.ofModel (.pack u.neg)) = .ofModel (.pack u) := by
  change Float.ofModel (.pack (Float.Model.pack u.neg).unpack.neg) = _
  rw [unpack_pack_neg, neg_neg]
  exact pack_unpack (.ofModel (.pack u))

theorem canonical_of_finite {m : Nat} {e : Int} {hm : 0 < m}
    (h : x.toModel.unpack = .finite .positive m e hm) :
    Nonneg x ∧ Canonical m e ∧ bits x = slot m e := by
  have hx : Nonneg x := by
    by_contra hx
    rcases unpack_of_not_nonneg hx with hu | hu | hu | ⟨n,f,hn,hu⟩ <;> rw [hu] at h <;> cases h
  refine ⟨hx,?_⟩
  rcases unpack_cases hx with ⟨-,hu⟩ | ⟨-,hu⟩ | ⟨n,f,hn,hc,hbits,hu⟩ <;> rw [hu] at h <;> cases h
  exact ⟨hc,hbits⟩

theorem le_of_negative {m : Nat} {e : Int} {hm : 0 < m}
    (hx : x.toModel.unpack = .finite .negative m e hm) (hy : Nonneg y) : x ≤ y := by
  rw [le_iff_compare, hx]
  rcases unpack_cases hy with ⟨-,hu⟩ | ⟨-,hu⟩ | ⟨n,f,hn,-,-,hu⟩ <;> rw [hu] <;> exact .inl rfl

theorem le_add_of_negative {m n : Nat} {e f : Int} {hm : 0 < m} {hn : 0 < n}
    (hx : x.toModel.unpack = .finite .negative m e hm)
    (hy : y.toModel.unpack = .finite .positive n f hn) : x ≤ x + y := by
  obtain ⟨k,hk⟩ : ∃ k, m * 2 ^ (e - min e f).toNat = k := ⟨_,rfl⟩
  obtain ⟨l,hl⟩ : ∃ l, n * 2 ^ (f - min e f).toNat = l := ⟨_,rfl⟩
  have hpos : 0 < l := hl ▸ Nat.mul_pos hn (by positivity)
  have hsum : x + y = .ofModel (.pack
      (UnpackedFloat.normalize .binary64 (-(k : Int) + l) (min e f) .positive)) := by
    change Float.ofModel (.pack (add .binary64 x.toModel.unpack y.toModel.unpack)) = _
    rw [hx, hy]
    unfold UnpackedFloat.add decreaseExponent Sign.apply
    dsimp only
    rw [Nat.shiftLeft_eq, Nat.shiftLeft_eq, hk, hl]
  rw [hsum, UnpackedFloat.normalize]
  rcases lt_trichotomy (-(k : Int) + l) 0 with hlt | heq | hgt
  · -- the sum stays negative: both sides are negated, and the magnitude has become smaller
    rw [compare_lt_iff_lt.mpr hlt]
    have hneg : (-x).toModel.unpack = .finite .positive m e hm := by
      rw [unpack_neg, hx]
      rfl
    obtain ⟨hnonneg,hc,hbits⟩ := canonical_of_finite hneg
    have hd : (-(-(k : Int) + l)).toNat ≠ 0 := by omega
    have hdk : (-(-(k : Int) + l)).toNat < m * 2 ^ (e - min e f).toNat := by omega
    dsimp only
    refine le_of_neg_le ?_
    rw [round_neg, neg_pack_neg]
    refine Nonneg.le ((bits_round_exact hd _).trans_le (min_le_left _ _)) hnonneg ?_
    rw [hbits]
    exact bits_round_le hd hc (min_le_left _ _) hdk
  · rw [compare_eq_iff_eq.mpr heq]
    exact le_of_negative hx (bits_zero.trans_le (Nat.zero_le _))
  · rw [compare_gt_iff_gt.mpr hgt]
    dsimp only
    exact le_of_negative hx ((bits_round_exact (by omega) _).trans_le (min_le_left _ _))

/-- Adding a positive double never goes back. -/
theorem le_add_of_positive {n : Nat} {f : Int} {hn : 0 < n} (hx : x ≤ x)
    (hy : y.toModel.unpack = .finite .positive n f hn) : x ≤ x + y := by
  have hpos := (canonical_of_finite hy).1
  by_cases hnonneg : Nonneg x
  · obtain ⟨hle,hsum⟩ := hnonneg.add hpos
    exact hnonneg.le hsum hle
  · rcases unpack_of_not_nonneg hnonneg with hu | hu | hu | ⟨m,e,hm,hu⟩
    · exact absurd hu (le_self_iff.mp hx)
    · have hsum : x + y = .ofModel (.pack (.infinity .negative)) := by
        change Float.ofModel (.pack (add .binary64 x.toModel.unpack y.toModel.unpack)) = _
        rw [hu, hy]
        rfl
      rw [hsum, le_iff_compare, hu]
      exact .inr rfl
    · have hsum : x + y = y := by
        change Float.ofModel (.pack (add .binary64 x.toModel.unpack y.toModel.unpack)) = _
        rw [hu, hy, ← pack_unpack y, hy]
        rfl
      rw [hsum, le_iff_compare, hu, hy]
      exact .inl rfl
    · exact le_add_of_negative hu hy

end AbcTune.Number
