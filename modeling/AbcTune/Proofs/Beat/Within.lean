import AbcTune.Proofs.Beat.Order

/-! # Doubles within bounds

A double rounds a result to nearest, so that no bound that is itself a double is passed. A sum, a
product or a quotient of doubles that keep to such bounds keeps to one as well, and is finite.
-/
namespace AbcTune.Number
open Float.Model Float.Model.UnpackedFloat

variable {x y : Float} {m n : Nat} {e f : Int} {j k : Nat}

/-! ## Rounding up to a bound -/

theorem shift_mul_pow (m k : Nat) :
    (⟨m * 2 ^ k,false,false⟩ : ExtendedMantissa) >>> k = ⟨m,false,false⟩ := by
  induction k generalizing m with
  | zero => rw [Nat.pow_zero, Nat.mul_one]; rfl
  | succ k ih =>
    have hpow : m * 2 ^ (k + 1) = m * 2 * 2 ^ k := by rw [Nat.pow_succ', Nat.mul_assoc]
    change ((⟨m * 2 ^ (k + 1),false,false⟩ : ExtendedMantissa) >>> k).shiftRightOne = _
    rw [hpow, ih]
    simp [ExtendedMantissa.shiftRightOne]

theorem Canonical.target_eq (h : Canonical m e) (hm : m ≠ 0) : target m e = e := by
  have hlog := (Nat.log2_lt hm).mpr h.small
  have hleast := h.least
  unfold target
  rcases h.full with heq | hfull
  · omega
  · have := (Nat.le_log2 hm).mpr hfull
    omega

/-- A double that is given more digits is rounded to itself. -/
theorem Canonical.rounded_eq (h : Canonical m e) (hm : m ≠ 0) (k : Nat) :
    rounded (m * 2 ^ k) (e - k) .exact = m := by
  have hshift : (target (m * 2 ^ k) (e - k) - (e - k)).toNat = k := by
    rw [target_mul_pow hm, h.target_eq hm]
    omega
  rw [rounded, shiftToTarget_eq, hshift]
  exact congrArg ExtendedMantissa.roundedMantissa (shift_mul_pow m k)

theorem two_zpow (h : e ≤ f) : (2 : ℚ) ^ f = 2 ^ e * ((2 ^ (f - e).toNat : Nat) : ℚ) := by
  have hsum : f = e + ((f - e).toNat : Int) := by omega
  conv_lhs => rw [hsum, zpow_add₀ (by norm_num), zpow_natCast]
  push_cast
  rfl

theorem value_le_iff (h : e ≤ f) :
    (m : ℚ) * 2 ^ e ≤ n * 2 ^ f ↔ m ≤ n * 2 ^ (f - e).toNat := by
  rw [two_zpow h, mul_left_comm, mul_comm (m : ℚ), mul_le_mul_iff_right₀ (by positivity),
    ← Nat.cast_mul, Nat.cast_le]

theorem value_lt_iff (h : e ≤ f) :
    (m : ℚ) * 2 ^ e < n * 2 ^ f ↔ m < n * 2 ^ (f - e).toNat := by
  rw [two_zpow h, mul_left_comm, mul_comm (m : ℚ), mul_lt_mul_iff_right₀ (by positivity),
    ← Nat.cast_mul, Nat.cast_lt]

theorem value_eq_iff (h : e ≤ f) :
    (m : ℚ) * 2 ^ e = n * 2 ^ f ↔ m = n * 2 ^ (f - e).toNat := by
  rw [eq_iff_le_not_lt, eq_iff_le_not_lt, value_le_iff h, value_lt_iff h]

theorem Canonical.value_le (h : Canonical m e) (h' : Canonical n f)
    (hslot : slot m e ≤ slot n f) : (m : ℚ) * 2 ^ e ≤ n * 2 ^ f := by
  have hsmall := h.small
  have hleast := h.least
  have hsmall' := h'.small
  have hleast' := h'.least
  unfold slot at hslot
  rcases lt_trichotomy e f with hlt | rfl | hgt
  · have hfull := h'.full.resolve_left (by omega)
    rw [value_le_iff hlt.le]
    have hpow : 2 ≤ 2 ^ (f - e).toNat := Nat.le_self_pow (by omega) 2
    nlinarith
  · rw [value_le_iff le_rfl, sub_self, Int.toNat_zero, Nat.pow_zero, Nat.mul_one]
    omega
  · have hfull := h.full.resolve_left (by omega)
    omega

/-- The exact value that a mantissa and an accuracy stand for is no more than a bound. -/
def NotAbove (m : Nat) (e : Int) (a : Accuracy) (bound : ℚ) : Prop :=
  (m : ℚ) * 2 ^ e < bound ∨ (m : ℚ) * 2 ^ e = bound ∧ a = .exact

/-- Rounding goes above no double that the exact value is not above. -/
theorem slot_rounded_le {a : Accuracy} (h : Canonical n f) (hn : n ≠ 0) (he : e ≤ target m e)
    (hbound : NotAbove m e a (n * 2 ^ f)) : slot (rounded m e a) (target m e) ≤ slot n f := by
  have hle : (m : ℚ) * 2 ^ e ≤ n * 2 ^ f := hbound.elim le_of_lt fun heq => heq.1.le
  have hsmall := h.small
  have hleast := h.least
  -- beyond the exponent of the bound even the least mantissa of full size would be too large
  have hexponent : e ≤ f := by
    by_contra hgt
    have hlog : 52 ≤ m.log2 := by
      unfold target at he
      omega
    have hm : m ≠ 0 := by
      rintro rfl
      rw [Nat.log2_zero] at hlog
      omega
    have hfull := (Nat.le_log2 hm).mp hlog
    have hlt : (n : ℚ) * 2 ^ f < m * 2 ^ e := by
      rw [value_lt_iff (by omega)]
      have hpow : 2 ≤ 2 ^ (e - f).toNat := Nat.le_self_pow (by omega) 2
      nlinarith
    exact hle.not_gt hlt
  rcases hbound with hlt | ⟨heq,rfl⟩
  · exact rounded_le_slot a h hexponent ((value_lt_iff hexponent).mp hlt)
  · obtain rfl := (value_eq_iff hexponent).mp heq
    have hdigits : e = f - (f - e).toNat := by omega
    generalize (f - e).toNat = k at hdigits
    subst hdigits
    rw [h.rounded_eq hn, target_mul_pow hn, h.target_eq hn]

/-! ## Finite doubles of at most a magnitude -/

/-- The magnitude of a finite number. -/
def size : UnpackedFloat → ℚ
  | .finite _ m e _ => m * 2 ^ e
  | _ => 0

/-- A finite double that is no larger than `n` times two to the power `k`, on either side of
zero. -/
structure Within (n k : Nat) (x : Float) : Prop where
  finite : x.isFinite = true
  le : size x.toModel.unpack ≤ n * 2 ^ k

/-- A bound that is itself a double. -/
theorem exists_canonical (hn : n ≠ 0) (hsmall : n < 2 ^ 53) (hk : k ≤ 970) :
    ∃ m e, Canonical m e ∧ m ≠ 0 ∧ e ≤ k ∧ (n : ℚ) * 2 ^ k = m * 2 ^ e ∧ slot m e < infinite := by
  have hlog := (Nat.log2_lt hn).mpr hsmall
  have hlow : 2 ^ 52 ≤ n * 2 ^ (52 - n.log2) := by
    have hpow : 2 ^ 52 = 2 ^ n.log2 * 2 ^ (52 - n.log2) := by
      rw [← Nat.pow_add]
      congr 1
      omega
    rw [hpow]
    exact Nat.mul_le_mul_right _ (Nat.log2_self_le hn)
  have hhigh : n * 2 ^ (52 - n.log2) < 2 ^ 53 := by
    have hpow : 2 ^ 53 = 2 ^ (n.log2 + 1) * 2 ^ (52 - n.log2) := by
      rw [← Nat.pow_add]
      congr 1
      omega
    rw [hpow]
    exact Nat.mul_lt_mul_of_pos_right Nat.lt_log2_self (by positivity)
  refine ⟨n * 2 ^ (52 - n.log2),k - (52 - n.log2 : Nat),⟨by omega,hhigh,.inr hlow⟩,by omega,
    by omega,?_,?_⟩
  · rw [← zpow_natCast, eq_comm, value_eq_iff (by omega)]
    congr 2
    omega
  · unfold slot infinite
    omega

theorem isFinite_eq (x : Float) : x.isFinite = x.toModel.unpack.isFinite := rfl

theorem within_of_slot (hx : Nonneg x) (h : Canonical m e) (hbits : bits x ≤ slot m e)
    (hslot : slot m e < infinite) (hle : (m : ℚ) * 2 ^ e ≤ n * 2 ^ k) : Within n k x := by
  rcases unpack_cases hx with ⟨htop,-⟩ | ⟨-,hu⟩ | ⟨m',e',hm',hc,hbits',hu⟩
  · omega
  · refine ⟨by rw [isFinite_eq, hu]; rfl,?_⟩
    rw [hu]
    exact (by positivity : (0 : ℚ) ≤ n * 2 ^ k)
  · refine ⟨by rw [isFinite_eq, hu]; rfl,?_⟩
    rw [hu]
    exact (hc.value_le h (hbits'.ge.trans hbits)).trans hle

theorem within_neg_pack {u : UnpackedFloat} (h : Within n k (.ofModel (.pack u))) :
    Within n k (.ofModel (.pack u.neg)) := by
  obtain ⟨hfinite,hle⟩ := h
  have hsize (u : UnpackedFloat) : u.neg.isFinite = u.isFinite ∧ size u.neg = size u := by
    cases u <;> simp [UnpackedFloat.neg, UnpackedFloat.isFinite, size]
  have hu : (Float.ofModel (.pack u.neg)).toModel.unpack =
      (Float.ofModel (.pack u)).toModel.unpack.neg := unpack_pack_neg u
  constructor
  · rw [isFinite_eq, hu, (hsize _).1]
    exact hfinite
  · rw [hu, (hsize _).2]
    exact hle

/-- What is rounded keeps to every bound that is a double. -/
theorem within_roundWithAccuracy {a : Accuracy} (he : e ≤ target m e)
    (hbound : NotAbove m e a (n * 2 ^ k)) (hn : n ≠ 0) (hsmall : n < 2 ^ 53) (hk : k ≤ 970)
    (s : Sign) : Within n k (.ofModel (.pack (roundWithAccuracy .binary64 s m e a))) := by
  have hpositive : Within n k (.ofModel (.pack (roundWithAccuracy .binary64 .positive m e a))) := by
    obtain ⟨m',e',hc,hm',-,hvalue,hslot⟩ := exists_canonical hn hsmall hk
    rw [hvalue] at hbound
    exact within_of_slot ((bits_round a he).trans_le (min_le_left _ _)) hc
      ((bits_round a he).trans_le ((min_le_right _ _).trans (slot_rounded_le hc hm' he hbound)))
      hslot hvalue.ge
  cases s with
  | positive => exact hpositive
  | negative =>
    rw [roundWithAccuracy_neg]
    exact within_neg_pack hpositive

theorem within_round (hm : m ≠ 0) (hle : (m : ℚ) * 2 ^ e ≤ n * 2 ^ k) (hsmall : n < 2 ^ 53)
    (hk : k ≤ 970) (s : Sign) :
    Within n k (.ofModel (.pack (UnpackedFloat.round .binary64 s m e))) := by
  have hn : n ≠ 0 := by
    rintro rfl
    have hpos : (0 : ℚ) < m * 2 ^ e := by positivity
    rw [Nat.cast_zero, zero_mul] at hle
    exact hle.not_gt hpos
  have hpositive : Within n k (.ofModel (.pack (UnpackedFloat.round .binary64 .positive m e))) := by
    rw [round_eq]
    generalize hdigits : (e - target m e).toNat = d
    have htarget := target_mul_pow hm e d
    have hvalue : ((m * 2 ^ d : Nat) : ℚ) * 2 ^ (e - d) = m * 2 ^ e := by
      rw [value_eq_iff (by omega)]
      congr 2
      omega
    refine within_roundWithAccuracy (by rw [htarget]; omega) ?_ hn hsmall hk .positive
    rcases hle.lt_or_eq with hlt | heq
    · exact .inl (hvalue.trans_lt hlt)
    · exact .inr ⟨hvalue.trans heq,rfl⟩
  cases s with
  | positive => exact hpositive
  | negative =>
    rw [round_neg]
    exact within_neg_pack hpositive

/-! ## Sums -/

theorem size_nonneg (u : UnpackedFloat) : 0 ≤ size u := by
  cases u with
  | finite s m e hm => exact (by positivity : (0 : ℚ) ≤ m * 2 ^ e)
  | _ => exact le_rfl

theorem Within.mono (h : Within n k x) {m j : Nat} (hle : n * 2 ^ k ≤ m * 2 ^ j) :
    Within m j x := by
  refine ⟨h.finite,h.le.trans ?_⟩
  exact_mod_cast hle

theorem within_zero (s : Sign) : Within n k (.ofModel (.pack (.zero s))) := by
  have hu : (Float.ofModel (.pack (.zero s))).toModel.unpack = .zero s := by cases s <;> rfl
  refine ⟨by rw [isFinite_eq, hu]; rfl,?_⟩
  rw [hu]
  exact (by positivity : (0 : ℚ) ≤ n * 2 ^ k)

theorem apply_eq (s : Sign) (a : Int) : s.apply a = a ∨ s.apply a = -a := by
  cases s
  · exact .inr rfl
  · exact .inl rfl

theorem finite_cases (h : x.isFinite = true) :
    (∃ s, x.toModel.unpack = .zero s) ∨ ∃ s m e hm, x.toModel.unpack = .finite s m e hm := by
  rw [isFinite_eq] at h
  revert h
  cases x.toModel.unpack with
  | zero s => exact fun _ => .inl ⟨s,rfl⟩
  | finite s m e hm => exact fun _ => .inr ⟨s,m,e,hm,rfl⟩
  | _ => exact fun h => by cases h

theorem within_normalize {d : Int} (hle : ((d.natAbs : Nat) : ℚ) * 2 ^ e ≤ n * 2 ^ k)
    (hsmall : n < 2 ^ 53) (hk : k ≤ 970) :
    Within n k (.ofModel (.pack (UnpackedFloat.normalize .binary64 d e .positive))) := by
  unfold UnpackedFloat.normalize
  rcases lt_trichotomy d 0 with hlt | rfl | hgt
  · rw [compare_lt_iff_lt.mpr hlt]
    have habs : (-d).toNat = d.natAbs := by omega
    dsimp only
    rw [habs]
    exact within_round (by omega) hle hsmall hk .negative
  · exact within_zero .positive
  · rw [compare_gt_iff_gt.mpr hgt]
    have habs : d.toNat = d.natAbs := by omega
    dsimp only
    rw [habs]
    exact within_round (by omega) hle hsmall hk .positive

/-- The mantissas of two numbers at the same exponent. -/
theorem value_align (h : f ≤ e) :
    ((m * 2 ^ (e - f).toNat : Nat) : ℚ) * 2 ^ f = m * 2 ^ e := (value_eq_iff h).mpr rfl

theorem Within.add (hx : Within m k x) (hy : Within n k y) (hsmall : m + n < 2 ^ 53)
    (hk : k ≤ 970) : Within (m + n) k (x + y) := by
  have hsum : x + y =
      .ofModel (.pack (UnpackedFloat.add .binary64 x.toModel.unpack y.toModel.unpack)) := rfl
  have hleft : m * 2 ^ k ≤ (m + n) * 2 ^ k := Nat.mul_le_mul_right _ (Nat.le_add_right m n)
  have hright : n * 2 ^ k ≤ (m + n) * 2 ^ k := Nat.mul_le_mul_right _ (Nat.le_add_left n m)
  rcases finite_cases hx.finite with ⟨s,hu⟩ | ⟨s,a,e,ha,hu⟩ <;>
    rcases finite_cases hy.finite with ⟨t,hu'⟩ | ⟨t,b,f,hb,hu'⟩
  · rw [hsum, hu, hu']
    unfold UnpackedFloat.add
    dsimp only
    split
    · exact within_zero s
    · exact within_zero .positive
  · have hy' : x + y = .ofModel (.pack y.toModel.unpack) := by
      rw [hsum, hu, hu']
      rfl
    rw [hy', pack_unpack]
    exact hy.mono hright
  · have hx' : x + y = .ofModel (.pack x.toModel.unpack) := by
      rw [hsum, hu, hu']
      rfl
    rw [hx', pack_unpack]
    exact hx.mono hleft
  · have hle := hx.le
    have hle' := hy.le
    rw [hu] at hle
    rw [hu'] at hle'
    rw [hsum, hu, hu']
    unfold UnpackedFloat.add decreaseExponent
    dsimp only
    rw [Nat.shiftLeft_eq, Nat.shiftLeft_eq]
    refine within_normalize ?_ hsmall hk
    generalize hp : a * 2 ^ (e - min e f).toNat = p
    generalize hq : b * 2 ^ (f - min e f).toNat = q
    have habs : (s.apply p + t.apply q).natAbs ≤ p + q := by
      rcases apply_eq s p with h | h <;> rcases apply_eq t q with h' | h' <;> rw [h, h'] <;> omega
    calc (((s.apply p + t.apply q).natAbs : Nat) : ℚ) * 2 ^ min e f
        ≤ ((p + q : Nat) : ℚ) * 2 ^ min e f := by
          exact mul_le_mul_of_nonneg_right (by exact_mod_cast habs) (by positivity)
      _ = (a : ℚ) * 2 ^ e + b * 2 ^ f := by
          rw [← hp, ← hq, Nat.cast_add, add_mul, value_align (min_le_left _ _),
            value_align (min_le_right _ _)]
      _ ≤ (m : ℚ) * 2 ^ k + n * 2 ^ k := add_le_add hle hle'
      _ = ((m + n : Nat) : ℚ) * 2 ^ k := by push_cast; ring

theorem apply_neg (s : Sign) (a : Int) : (-s).apply a = -s.apply a := by
  cases s
  · exact (Int.neg_neg a).symm
  · rfl

/-- Taking a number away is adding its negative. -/
theorem sub_eq (u v : UnpackedFloat) :
    UnpackedFloat.sub .binary64 u v = UnpackedFloat.add .binary64 u v.neg := by
  cases u with
  | notANumber => cases v <;> rfl
  | infinity s => cases v <;> rfl
  | zero s => cases v <;> rfl
  | finite s m e hm =>
    cases v with
    | finite t n f hn =>
      unfold UnpackedFloat.sub UnpackedFloat.neg UnpackedFloat.add
      dsimp only
      rw [apply_neg, Int.sub_eq_add_neg]
    | _ => rfl

theorem Within.neg (h : Within n k x) : Within n k (-x) := by
  have hneg := within_neg_pack (u := x.toModel.unpack) (by rwa [pack_unpack])
  exact hneg

theorem Within.sub (hx : Within m k x) (hy : Within n k y) (hsmall : m + n < 2 ^ 53)
    (hk : k ≤ 970) : Within (m + n) k (x - y) := by
  have hsub : x - y = x + -y := by
    change Float.ofModel (.pack (UnpackedFloat.sub .binary64 x.toModel.unpack y.toModel.unpack)) =
      .ofModel (.pack (UnpackedFloat.add .binary64 x.toModel.unpack (-y).toModel.unpack))
    rw [sub_eq, unpack_neg]
  rw [hsub]
  exact hx.add hy.neg hsmall hk

/-! ## Products and quotients -/

theorem canonical_of_unpack {s : Sign} {hm : 0 < m} (h : x.toModel.unpack = .finite s m e hm) :
    Canonical m e := by
  cases s with
  | positive => exact (canonical_of_finite h).2.1
  | negative =>
    have hneg : (-x).toModel.unpack = .finite .positive m e hm := by
      rw [unpack_neg, h]
      rfl
    exact (canonical_of_finite hneg).2.1

theorem Within.mul (hx : Within m j x) (hy : Within n k y) (hn : m * n ≠ 0)
    (hsmall : m * n < 2 ^ 53) (hk : j + k ≤ 970) : Within (m * n) (j + k) (x * y) := by
  have hproduct : x * y =
      .ofModel (.pack (UnpackedFloat.mul .binary64 x.toModel.unpack y.toModel.unpack)) := rfl
  rcases finite_cases hx.finite with ⟨s,hu⟩ | ⟨s,a,e,ha,hu⟩ <;>
    rcases finite_cases hy.finite with ⟨t,hu'⟩ | ⟨t,b,f,hb,hu'⟩ <;> rw [hproduct, hu, hu']
  · exact within_zero _
  · exact within_zero _
  · exact within_zero _
  · have hle := hx.le
    have hle' := hy.le
    rw [hu] at hle
    rw [hu'] at hle'
    have htarget := le_target_mul (canonical_of_unpack hu) (canonical_of_unpack hu') ha hb
    have hvalue : ((a * b : Nat) : ℚ) * 2 ^ (e + f) ≤ (m * n : Nat) * 2 ^ (j + k) := by
      calc ((a * b : Nat) : ℚ) * 2 ^ (e + f) = (a * 2 ^ e) * (b * 2 ^ f) := by
            rw [zpow_add₀ (by norm_num)]
            push_cast
            ring
        _ ≤ (m * 2 ^ j) * (n * 2 ^ k) := mul_le_mul hle hle' (by positivity) (by positivity)
        _ = (m * n : Nat) * 2 ^ (j + k) := by
            push_cast
            ring
    refine within_roundWithAccuracy htarget ?_ hn hsmall hk _
    rcases hvalue.lt_or_eq with hlt | heq
    · exact .inl hlt
    · exact .inr ⟨heq,rfl⟩

/-- A quotient has digits enough before it is rounded. -/
theorem le_target_div {a b : Nat} (ha : 0 < a) (hb : 0 < b) {e' : Int} (he : e' ≤ e - f)
    (htarget : e' ≤ Format.binary64.targetExponent (totalExponent a e - totalExponent b f)) :
    e' ≤ target (a * 2 ^ (e - f - e').toNat / b) e' := by
  have hbits : Format.binary64.mantissaBits = 53 := rfl
  have hleast : Format.binary64.minExponent = -1074 := rfl
  rw [Format.targetExponent, totalExponent, totalExponent, hbits, hleast] at htarget
  unfold target
  by_cases hlast : e' ≤ -1074
  · exact hlast.trans (le_max_right _ _)
  · have hfull : 2 ^ 52 ≤ a * 2 ^ (e - f - e').toNat / b := by
      rw [Nat.le_div_iff_mul_le hb]
      calc 2 ^ 52 * b ≤ 2 ^ 52 * 2 ^ (b.log2 + 1) := Nat.mul_le_mul_left _ Nat.lt_log2_self.le
        _ = 2 ^ (52 + (b.log2 + 1)) := (Nat.pow_add ..).symm
        _ ≤ 2 ^ (a.log2 + (e - f - e').toNat) := Nat.pow_le_pow_right (by decide) (by omega)
        _ = 2 ^ a.log2 * 2 ^ (e - f - e').toNat := Nat.pow_add ..
        _ ≤ a * 2 ^ (e - f - e').toNat := Nat.mul_le_mul_right _ (Nat.log2_self_le ha.ne')
    have hlog := (Nat.le_log2 (by omega)).mpr hfull
    exact le_trans (by omega) (le_max_left _ _)

/-- A quotient keeps to a bound, if the bound times the divisor is no less than what is divided. -/
theorem within_div (hx : x.isFinite = true) (hy : y.isFinite = true)
    (hpos : size y.toModel.unpack ≠ 0)
    (hle : size x.toModel.unpack ≤ n * 2 ^ k * size y.toModel.unpack) (hn : n ≠ 0)
    (hsmall : n < 2 ^ 53) (hk : k ≤ 970) : Within n k (x / y) := by
  have hquotient : x / y =
      .ofModel (.pack (UnpackedFloat.div .binary64 x.toModel.unpack y.toModel.unpack)) := rfl
  rcases finite_cases hy with ⟨t,hu'⟩ | ⟨t,b,f,hb,hu'⟩
  · rw [hu'] at hpos
    exact absurd rfl hpos
  rcases finite_cases hx with ⟨s,hu⟩ | ⟨s,a,e,ha,hu⟩ <;> rw [hquotient, hu, hu']
  · exact within_zero _
  · rw [hu, hu'] at hle
    unfold UnpackedFloat.div divCore
    dsimp only
    generalize he' : min (e - f) (Format.binary64.targetExponent
      (totalExponent a e - totalExponent b f)) = e'
    have hfirst : e' ≤ e - f := he' ▸ min_le_left _ _
    have htarget := le_target_div ha hb hfirst (he' ▸ min_le_right _ _)
    have hvalue : ((a * 2 ^ (e - f - e').toNat : Nat) : ℚ) * 2 ^ e' ≤ n * 2 ^ k * b := by
      rw [value_align hfirst, zpow_sub₀ (by norm_num), ← mul_div_assoc, div_le_iff₀ (by positivity),
        mul_assoc]
      exact hle
    rw [Nat.shiftLeft_eq]
    generalize a * 2 ^ (e - f - e').toNat = p at htarget hvalue ⊢
    refine within_roundWithAccuracy htarget ?_ hn hsmall hk _
    have hdivided : (p : ℚ) = b * (p / b : Nat) + (p % b : Nat) := by
      exact_mod_cast (Nat.div_add_mod p b).symm
    have hb' : (0 : ℚ) < b := by exact_mod_cast hb
    unfold accuracyOfFraction
    by_cases hrest : p % b = 0
    · rw [if_pos hrest]
      have hexact : ((p / b : Nat) : ℚ) * 2 ^ e' ≤ n * 2 ^ k := by
        refine le_of_mul_le_mul_right ?_ hb'
        rw [hrest, Nat.cast_zero, add_zero] at hdivided
        rw [hdivided] at hvalue
        linarith
      rcases hexact.lt_or_eq with hlt | heq
      · exact .inl hlt
      · exact .inr ⟨heq,rfl⟩
    · -- something is left over, so that the exact quotient is above its mantissa
      left
      have hmore : (0 : ℚ) < (p % b : Nat) * 2 ^ e' := by positivity
      refine lt_of_mul_lt_mul_right ?_ hb'.le
      rw [hdivided] at hvalue
      linarith

end AbcTune.Number
