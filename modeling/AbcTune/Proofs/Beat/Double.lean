import AbcTune.Proofs.Number.Rounding

/-! # Doubles on the beat axis

Doubles that are not negative are ordered by their bits. Adding one of them to another never goes
back, and positive factors never leave them.
-/
namespace AbcTune.Number
open Float.Model Float.Model.UnpackedFloat

variable {x y : Float}

theorem toBits_add (x y : Float) :
    bits (x + y) = bits (.ofModel (.pack (add .binary64 x.toModel.unpack y.toModel.unpack))) := rfl

theorem toBits_mul (x y : Float) :
    bits (x * y) = bits (.ofModel (.pack (mul .binary64 x.toModel.unpack y.toModel.unpack))) := rfl

theorem unpack_zero : (0.0 : Float).toModel.unpack = .zero .positive := by rfl

theorem unpack_four :
    (4.0 : Float).toModel.unpack = .finite .positive (2 ^ 52) (-50) (by decide) := by
  rfl

/-! ## Sums -/

theorem log2_mul_pow {m : Nat} (hm : m ≠ 0) (n : Nat) : (m * 2 ^ n).log2 = m.log2 + n := by
  induction n with
  | zero => rw [Nat.pow_zero, Nat.mul_one]; rfl
  | succ n ih =>
    have hdouble : m * 2 ^ (n + 1) = 2 * (m * 2 ^ n) := by ring
    rw [hdouble, Nat.log2_two_mul (by positivity), ih, Nat.add_assoc]

theorem target_mul_pow {m : Nat} (hm : m ≠ 0) (e : Int) (n : Nat) :
    target (m * 2 ^ n) (e - n) = target m e := by
  unfold target
  rw [log2_mul_pow hm]
  congr 1
  omega

/-- An exact number that may first have to be given more digits. -/
theorem round_eq (m : Nat) (e : Int) :
    UnpackedFloat.round .binary64 .positive m e =
      roundWithAccuracy .binary64 .positive (m * 2 ^ (e - target m e).toNat)
        (e - (e - target m e).toNat) .exact := by
  unfold UnpackedFloat.round decreaseExponent
  rw [targetExponent_eq]
  dsimp only
  rw [Nat.shiftLeft_eq]

theorem normalize_of_pos {n : Nat} (h : 0 < n) (e : Int) (s : Sign) :
    UnpackedFloat.normalize .binary64 n e s = UnpackedFloat.round .binary64 .positive n e := by
  have hcompare : compare (n : Int) 0 = .gt := Int.compare_eq_gt.mpr (by exact_mod_cast h)
  rw [UnpackedFloat.normalize, hcompare, Int.toNat_natCast]

/-- The sum of two finite doubles before rounding. -/
theorem add_finite {m₁ m₂ : Nat} {e₁ e₂ : Int} (h₁ : 0 < m₁) (h₂ : 0 < m₂) :
    add .binary64 (.finite .positive m₁ e₁ h₁) (.finite .positive m₂ e₂ h₂) =
      UnpackedFloat.round .binary64 .positive
        (m₁ * 2 ^ (e₁ - min e₁ e₂).toNat + m₂ * 2 ^ (e₂ - min e₁ e₂).toNat) (min e₁ e₂) := by
  have hpos : 0 < m₁ * 2 ^ (e₁ - min e₁ e₂).toNat + m₂ * 2 ^ (e₂ - min e₁ e₂).toNat := by
    positivity
  unfold UnpackedFloat.add decreaseExponent Sign.apply
  dsimp only
  rw [Nat.shiftLeft_eq, Nat.shiftLeft_eq, ← Nat.cast_add, normalize_of_pos hpos]

theorem bits_round_exact {m : Nat} (hm : m ≠ 0) (e : Int) :
    bits (.ofModel (.pack (UnpackedFloat.round .binary64 .positive m e))) =
      min infinite (slot (rounded (m * 2 ^ (e - target m e).toNat)
        (e - (e - target m e).toNat) .exact) (target m e)) := by
  have htarget := target_mul_pow hm e (e - target m e).toNat
  rw [round_eq, bits_round _ (by rw [htarget]; omega), htarget]

/-- An exact number is rounded to no double that it is not below. -/
theorem bits_le_round {m₀ m : Nat} {e₀ e : Int} (hm : m ≠ 0) (h : Canonical m₀ e₀)
    (hpos : 0 < m₀) (hexponent : e ≤ e₀) (hle : m₀ * 2 ^ (e₀ - e).toNat ≤ m) :
    min infinite (slot m₀ e₀) ≤
      bits (.ofModel (.pack (UnpackedFloat.round .binary64 .positive m e))) := by
  rw [bits_round_exact hm]
  generalize hmore : (e - target m e).toNat = n
  have htarget := target_mul_pow hm e n
  have hshift : (e₀ - (e - n)).toNat = (e₀ - e).toNat + n := by omega
  rw [← htarget]
  refine min_le_min_left _ (slot_le_rounded _ h hpos (by omega) ?_ (by rw [htarget]; omega))
  rw [hshift, Nat.pow_add, ← Nat.mul_assoc]
  exact Nat.mul_le_mul_right _ hle

theorem bits_pack_unpack (x : Float) : bits (.ofModel (.pack x.toModel.unpack)) = bits x :=
  congrArg BitVec.toNat (pack_unpack_of_valid x.toModel.valid)

/-- A sum of positions is a position that does not lie before the first one. -/
theorem Nonneg.add (hx : Nonneg x) (hy : Nonneg y) : bits x ≤ bits (x + y) ∧ Nonneg (x + y) := by
  have hpack := bits_pack_unpack x
  have hpack' := bits_pack_unpack y
  unfold Nonneg at hx hy ⊢
  rw [toBits_add]
  rcases unpack_cases hx with ⟨hbits,hu⟩ | ⟨hbits,hu⟩ | ⟨m,e,hm,hc,hbits,hu⟩ <;>
    rcases unpack_cases hy with ⟨hbits',hu'⟩ | ⟨hbits',hu'⟩ | ⟨m',e',hm',hc',hbits',hu'⟩ <;>
    rw [hu] at hpack ⊢ <;> rw [hu'] at hpack' ⊢
  case inr.inr.inr.inr =>
    have hslot : slot m e ≤ infinite := hbits ▸ hx
    rw [add_finite, hbits, ← min_eq_right hslot]
    have hsum : m * 2 ^ (e - min e e').toNat + m' * 2 ^ (e' - min e e').toNat ≠ 0 := by positivity
    refine ⟨bits_le_round hsum hc hm (min_le_left _ _) (Nat.le_add_right _ _),?_⟩
    exact (bits_round_exact hsum _).trans_le (min_le_left _ _)
  case inr.inl.inr.inr => exact ⟨hbits ▸ Nat.zero_le _, hpack'.le.trans hy⟩
  all_goals
    first
    | exact ⟨hpack.ge,hpack.le.trans hx⟩
    | exact ⟨hx.trans bits_infinity.ge,bits_infinity.le⟩

theorem Nonneg.bits_add_zero (hx : Nonneg x) : bits (x + 0.0) = bits x := by
  have hpack := bits_pack_unpack x
  rw [toBits_add, unpack_zero]
  rcases unpack_cases hx with ⟨hbits,hu⟩ | ⟨hbits,hu⟩ | ⟨m,e,hm,hc,hbits,hu⟩ <;>
    rw [hu] at hpack ⊢ <;> exact hpack

/-! ## Products -/

theorem le_target_mul {m₁ m₂ : Nat} {e₁ e₂ : Int} (h₁ : Canonical m₁ e₁) (h₂ : Canonical m₂ e₂)
    (hpos₁ : 0 < m₁) (hpos₂ : 0 < m₂) : e₁ + e₂ ≤ target (m₁ * m₂) (e₁ + e₂) := by
  have hleast₁ := h₁.least
  have hleast₂ := h₂.least
  by_cases hsmall : e₁ + e₂ ≤ -1074
  · exact hsmall.trans (le_max_right _ _)
  · have hfull : 2 ^ 52 ≤ m₁ * m₂ := by
      rcases h₁.full with h | h
      · have := h₂.full.resolve_left (by omega)
        exact this.trans (Nat.le_mul_of_pos_left _ hpos₁)
      · exact h.trans (Nat.le_mul_of_pos_right _ hpos₂)
    have hlog := (Nat.le_log2 (by positivity : m₁ * m₂ ≠ 0)).mpr hfull
    refine le_trans ?_ (le_max_left _ _)
    omega

/-- A product is a position, unless it is of zero and infinity. -/
theorem Nonneg.mul (hx : Nonneg x) (hy : Nonneg y) (hxy : bits x = infinite → bits y ≠ 0)
    (hyx : bits y = infinite → bits x ≠ 0) : Nonneg (x * y) := by
  rw [Nonneg, toBits_mul]
  rcases unpack_cases hx with ⟨hbits,hu⟩ | ⟨hbits,hu⟩ | ⟨m,e,hm,hc,hbits,hu⟩ <;>
    rcases unpack_cases hy with ⟨hbits',hu'⟩ | ⟨hbits',hu'⟩ | ⟨m',e',hm',hc',hbits',hu'⟩ <;>
    rw [hu, hu']
  case inl.inr.inl => exact absurd hbits' (hxy hbits)
  case inr.inl.inl => exact absurd hbits (hyx hbits')
  case inr.inr.inr.inr =>
    have htarget := le_target_mul hc hc' hm hm'
    exact (bits_round .exact htarget).trans_le (min_le_left _ _)
  all_goals
    first
    | exact bits_infinity.le
    | exact bits_zero.trans_le (Nat.zero_le _)

theorem Nonneg.mul_one (hx : Nonneg x) : Nonneg (x * 1.0) :=
  hx.mul (by decide) (fun _ => by decide) (fun h => absurd h (by decide))

theorem Nonneg.bits_le_four_mul (hx : Nonneg x) : bits x ≤ bits (4.0 * x) := by
  rw [toBits_mul, unpack_four]
  rcases unpack_cases hx with ⟨hbits,hu⟩ | ⟨hbits,hu⟩ | ⟨m,e,hm,hc,hbits,hu⟩ <;> rw [hu, hbits]
  · exact bits_infinity.ge
  · exact Nat.zero_le _
  · have hslot : slot m e ≤ infinite := hbits ▸ hx
    have hfour : Canonical (2 ^ 52) (-50) := ⟨by decide,by decide,.inr le_rfl⟩
    have htarget := le_target_mul hfour hc (by decide) hm
    refine le_trans ?_ (bits_round .exact htarget).ge
    refine le_min hslot (slot_le_rounded _ hc hm (by omega) ?_ htarget)
    have hshift : (e - (-50 + e)).toNat = 50 := by omega
    rw [hshift, Nat.mul_comm]
    exact Nat.mul_le_mul_right _ (by decide)

/-! ## Positive doubles -/

theorem unpack_of_not_nonneg (h : ¬Nonneg x) :
    x.toModel.unpack = .notANumber ∨ x.toModel.unpack = .infinity .negative ∨
      x.toModel.unpack = .zero .negative ∨
      ∃ m e hm, x.toModel.unpack = .finite .negative m e hm := by
  obtain ⟨b,hb⟩ : ∃ b, x.toModel.toBits.toBitVec = b := ⟨_,rfl⟩
  have hx : bits x = b.toNat := by rw [← hb]; rfl
  have hmant := toNat_unpackMantissa b
  have hexp := toNat_unpackExponent b
  have hsign := toNat_unpackSign b
  unfold Nonneg infinite at h
  rw [hx] at h
  unfold Float.Model.unpack UnpackedFloat.unpack
  rw [hb]
  by_cases hzero : @unpackSign .binary64 b = 0#1
  · left
    have hn : (@unpackSign .binary64 b).toNat = 0 := by rw [hzero]; rfl
    have hlast : @unpackExponent .binary64 b = -1#_ := BitVec.eq_of_toNat_eq (by
      rw [hexp]
      change _ = 2047
      omega)
    have hmantissa : @unpackMantissa .binary64 b ≠ 0#_ := fun hz => by
      have hz : (@unpackMantissa .binary64 b).toNat = 0 := by rw [hz]; rfl
      have hl : (@unpackExponent .binary64 b).toNat = 2047 := by rw [hlast]; rfl
      omega
    rw [if_pos hlast, if_neg hmantissa]
  · have hnegative : Sign.ofBitVec (@unpackSign .binary64 b) = .negative := if_neg hzero
    simp only [hnegative]
    split
    · split
      · exact .inr (.inl rfl)
      · exact .inl rfl
    · split
      · split
        · exact .inr (.inr (.inl rfl))
        · next hz =>
          have hm : (@unpackMantissa .binary64 b).toNat ≠ 0 := fun hm =>
            hz (BitVec.eq_of_toNat_eq hm)
          exact .inr (.inr (.inr ⟨_,_,Nat.pos_of_ne_zero hm,rfl⟩))
      · have hm : 0 < (1#1 ++ @unpackMantissa .binary64 b).toNat := by
          rw [BitVec.toNat_append]
          exact Nat.lt_of_lt_of_le (by decide : 0 < 2 ^ 52) Nat.left_le_or
        exact .inr (.inr (.inr ⟨_,_,hm,rfl⟩))

theorem lt_iff_compare : x < y ↔ x.toModel.unpack.compare y.toModel.unpack = some .lt := by
  have hlt : x < y ↔ (x.toModel.unpack.compare y.toModel.unpack == some .lt) = true :=
    decide_eq_true_iff
  rw [hlt, beq_iff_eq]

theorem nonneg_of_pos (h : (0.0 : Float) < x) : Nonneg x ∧ bits x ≠ 0 := by
  rw [lt_iff_compare, unpack_zero] at h
  constructor
  · by_contra hx
    rcases unpack_of_not_nonneg hx with hu | hu | hu | ⟨m,e,hm,hu⟩ <;> rw [hu] at h <;> cases h
  · intro hx
    rcases unpack_cases (hx.trans_le (Nat.zero_le _)) with ⟨hbits,-⟩ | ⟨-,hu⟩ | ⟨m,e,hm,hc,hbits,-⟩
    · exact absurd (hbits.symm.trans hx) (by decide)
    · rw [hu] at h
      cases h
    · rw [hx] at hbits
      unfold slot at hbits
      omega

/-! ## Magnitudes -/

/-- A double whose last digit stands between two exponents. -/
structure Magnitude (x : Float) (a b : Int) : Prop where
  least : -1074 < a
  order : a ≤ b
  most : b ≤ 969
  low : slot (2 ^ 52) a ≤ bits x
  high : bits x ≤ slot (2 ^ 53) b

theorem Magnitude.lt_infinite {a b : Int} (h : Magnitude x a b) : bits x < infinite := by
  have hmost := h.most
  have hhigh := h.high
  unfold slot at hhigh
  unfold infinite
  omega

theorem Magnitude.nonneg {a b : Int} (h : Magnitude x a b) : Nonneg x := h.lt_infinite.le

theorem Magnitude.pos {a b : Int} (h : Magnitude x a b) : 0 < bits x := by
  have hlow := h.low
  unfold slot at hlow
  omega

theorem Magnitude.unpack {a b : Int} (h : Magnitude x a b) :
    ∃ m e hm, 2 ^ 52 ≤ m ∧ m < 2 ^ 53 ∧ a ≤ e ∧ e ≤ b + 1 ∧
      x.toModel.unpack = .finite .positive m e hm := by
  have hleast := h.least
  have horder := h.order
  have hlow := h.low
  have hhigh := h.high
  rcases unpack_cases h.nonneg with ⟨hbits,-⟩ | ⟨hbits,-⟩ | ⟨m,e,hm,hc,hbits,hu⟩
  · exact absurd hbits h.lt_infinite.ne
  · exact absurd hbits h.pos.ne'
  · have hsmall := hc.small
    have hcleast := hc.least
    have hfull := hc.full
    rw [hbits] at hlow hhigh
    unfold slot at hlow hhigh
    exact ⟨m,e,hm,by omega,hsmall,by omega,by omega,hu⟩

/-- Rounding keeps to the magnitude of the exact number. -/
theorem magnitude_round {m : Nat} {e a b : Int} (acc : Accuracy)
    (hleast : -1074 < a) (hmost : b ≤ 969) (he : e ≤ target m e) (ha : a ≤ m.log2 + e - 52)
    (hb : m.log2 + e - 52 ≤ b) :
    Magnitude (.ofModel (.pack (roundWithAccuracy .binary64 .positive m e acc))) a b := by
  have htarget : target m e = m.log2 + e - 52 := max_eq_left (by omega)
  have hlow := full_le_rounded acc he (by omega)
  have hhigh := rounded_le_full m e acc
  refine ⟨hleast,ha.trans hb,hmost,?_,?_⟩ <;> rw [bits_round acc he, htarget] <;> unfold slot
  · refine le_min ?_ ?_
    · unfold infinite; omega
    · omega
  · refine (min_le_right _ _).trans ?_
    omega

theorem log2_eq {m : Nat} (hlow : 2 ^ 52 ≤ m) (hhigh : m < 2 ^ 53) : m.log2 = 52 := by
  have hm : m ≠ 0 := by omega
  have := (Nat.le_log2 hm).mpr hlow
  have := (Nat.log2_lt hm).mpr hhigh
  omega

theorem Magnitude.mul {a b c d : Int} (hx : Magnitude x a b) (hy : Magnitude y c d)
    (hleast : -1074 < a + c + 52) (hmost : b + d + 55 ≤ 969) :
    Magnitude (x * y) (a + c + 52) (b + d + 55) := by
  obtain ⟨m,e,hm,hlow,hhigh,ha,hb,hu⟩ := hx.unpack
  obtain ⟨m',e',hm',hlow',hhigh',hc,hd,hu'⟩ := hy.unpack
  have hproduct : x * y = .ofModel (.pack
      (roundWithAccuracy .binary64 .positive (m * m') (e + e') .exact)) := by
    change Float.ofModel (.pack (UnpackedFloat.mul _ x.toModel.unpack y.toModel.unpack)) = _
    rw [hu, hu']
    rfl
  have hne : m * m' ≠ 0 := by positivity
  have hloglow : 104 ≤ (m * m').log2 := by
    rw [Nat.le_log2 hne]
    calc 2 ^ 104 = 2 ^ 52 * 2 ^ 52 := by norm_num
      _ ≤ m * m' := Nat.mul_le_mul hlow hlow'
  have hloghigh : (m * m').log2 < 106 := by
    rw [Nat.log2_lt hne]
    calc m * m' < 2 ^ 53 * 2 ^ 53 := Nat.mul_lt_mul'' hhigh hhigh'
      _ = 2 ^ 106 := by norm_num
  rw [hproduct]
  refine magnitude_round .exact hleast hmost ?_ (by omega) (by omega)
  exact le_trans (by omega) (le_max_left _ _)

theorem Magnitude.div {a b c d : Int} (hx : Magnitude x a b) (hy : Magnitude y c d)
    (hleast : -1074 < a - d - 54) (hmost : b - c - 51 ≤ 969) :
    Magnitude (x / y) (a - d - 54) (b - c - 51) := by
  obtain ⟨m,e,hm,hlow,hhigh,ha,hb,hu⟩ := hx.unpack
  obtain ⟨m',e',hm',hlow',hhigh',hc,hd,hu'⟩ := hy.unpack
  have hexponent : min (e - e') (Format.binary64.targetExponent
      (totalExponent m e - totalExponent m' e')) = e - e' - 53 := by
    have hbits : Format.binary64.mantissaBits = 53 := rfl
    have hfirst : Format.binary64.minExponent = -1074 := rfl
    rw [Format.targetExponent, totalExponent, totalExponent, log2_eq hlow hhigh,
      log2_eq hlow' hhigh', hbits, hfirst]
    omega
  have hquotient : x / y = .ofModel (.pack
      (roundWithAccuracy .binary64 .positive (m * 2 ^ 53 / m') (e - e' - 53)
        (accuracyOfFraction (m * 2 ^ 53 % m') m'))) := by
    change Float.ofModel (.pack (UnpackedFloat.div _ x.toModel.unpack y.toModel.unpack)) = _
    rw [hu, hu']
    unfold UnpackedFloat.div divCore
    dsimp only
    have hshift : (e - e' - (e - e' - 53)).toNat = 53 := by omega
    rw [hexponent, hshift, Nat.shiftLeft_eq]
    rfl
  have hne : m * 2 ^ 53 / m' ≠ 0 := by
    have := (Nat.le_div_iff_mul_le hm' (x := 1) (y := m * 2 ^ 53)).mpr (by omega)
    omega
  have hloglow : 52 ≤ (m * 2 ^ 53 / m').log2 := by
    rw [Nat.le_log2 hne, Nat.le_div_iff_mul_le hm']
    omega
  have hloghigh : (m * 2 ^ 53 / m').log2 < 54 := by
    rw [Nat.log2_lt hne, Nat.div_lt_iff_lt_mul hm']
    omega
  rw [hquotient]
  refine magnitude_round _ hleast hmost ?_ (by omega) (by omega)
  exact le_trans (by omega) (le_max_left _ _)

theorem magnitude_one : Magnitude 1.0 (-52) (-52) :=
  ⟨by decide,by decide,by decide,by decide,by decide⟩

theorem magnitude_four : Magnitude 4.0 (-50) (-50) :=
  ⟨by decide,by decide,by decide,by decide,by decide⟩

/-! ## Whole numbers -/

/-- A whole number of few digits is rounded, then multiplied by the first power of ten. -/
theorem ofNat_eq_of_lt {n : Nat} (h : n < 2 ^ 53) :
    (Beats.ofNat n : Float) =
      .ofModel (.pack (UnpackedFloat.normalize .binary64 n 0 .positive)) * 1.0 := by
  change Float.ofScientific n false 0 = _
  have hword : n.toUInt64.toNat = n := by
    exact Nat.mod_eq_of_lt (h.trans (by decide))
  rw [Float.ofScientific, dif_pos ⟨h,by decide⟩]
  change Float.ofModel
    (.pack (UnpackedFloat.normalize .binary64 n.toUInt64.toNat 0 .positive)) * 1.0 = _
  rw [hword]

theorem nonneg_ofNat (n : Nat) : Nonneg (Beats.ofNat n) := by
  by_cases hsmall : n < 2 ^ 53
  · rw [ofNat_eq_of_lt hsmall]
    refine Nonneg.mul_one ?_
    rcases Nat.eq_zero_or_pos n with rfl | hpos
    · exact bits_zero.trans_le (Nat.zero_le _)
    · rw [normalize_of_pos hpos]
      exact (bits_round_exact hpos.ne' _).trans_le (min_le_left _ _)
  · have hn : n ≠ 0 := by omega
    have hlog := (Nat.le_log2 hn).mpr (not_lt.mp hsmall)
    have hne : n * 2 ^ 53 * 10 ^ 0 ≠ 0 := by positivity
    have hmodel : (Beats.ofNat n : Float) =
        .ofModel (.pack (UnpackedFloat.ofScientific .binary64 n 0)) := by
      change Float.ofScientific n false 0 = _
      rw [Float.ofScientific, dif_neg (fun h => hsmall h.1)]
      rfl
    have hexact : UnpackedFloat.ofScientific .binary64 n 0 =
        roundWithAccuracy .binary64 .positive (n * 2 ^ 53 * 10 ^ 0) (-53 + 0) .exact := by
      have hwidth : (2 : Int) ^ Format.binary64.exponentBits = 2048 := rfl
      rw [UnpackedFloat.ofScientific, dif_neg hn, if_neg (by decide), if_neg (by omega),
        if_pos le_rfl]
      unfold UnpackedFloat.mul
      simp only [Nat.shiftLeft_eq]
      rfl
    have htarget : -53 + 0 ≤ target (n * 2 ^ 53 * 10 ^ 0) (-53 + 0) := by
      refine le_trans ?_ (le_max_left _ _)
      rw [Nat.pow_zero, Nat.mul_one, log2_mul_pow hn]
      omega
    rw [Nonneg, hmodel, hexact, bits_round .exact htarget]
    exact min_le_left _ _

/-- The numbers that a meter is written with. -/
theorem magnitude_ofNat {n : Nat} (hpos : 0 < n) (hmost : n ≤ 255) :
    Magnitude (Beats.ofNat n) (-52) (-42) := by
  have hlog : n.log2 < 8 := (Nat.log2_lt hpos.ne').mpr (by omega)
  have htarget : target n 0 = n.log2 + 0 - 52 := max_eq_left (by omega)
  have hexact : Magnitude
      (.ofModel (.pack (UnpackedFloat.normalize .binary64 n 0 .positive))) (-52) (-45) := by
    rw [normalize_of_pos hpos, round_eq]
    have hlog' := log2_mul_pow hpos.ne' (0 - target n 0).toNat
    refine magnitude_round .exact (by decide) (by decide) ?_ ?_ ?_
    · rw [target_mul_pow hpos.ne']
      omega
    · omega
    · omega
  rw [ofNat_eq_of_lt (by omega)]
  exact hexact.mul magnitude_one (by decide) (by decide)

/-! ## Positions in order -/

theorem Nonneg.not_isNaN (hx : Nonneg x) : x.isNaN = false := by
  have hnan : x.isNaN = x.toModel.unpack.isNaN := rfl
  rw [hnan]
  rcases unpack_cases hx with ⟨-,hu⟩ | ⟨-,hu⟩ | ⟨m,e,hm,-,-,hu⟩ <;> rw [hu] <;> rfl

theorem sortsBefore_iff (hx : Nonneg x) (hy : Nonneg y) :
    Beats.sortsBefore x y = true ↔ bits x ≤ bits y := by
  have hkey : ∀ {z : Float}, Nonneg z → floatKey z = bits z := by
    intro z hz
    have hsmall : z.toBits.toNat < Nat.pow 2 63 := lt_of_le_of_lt hz (by decide)
    rw [floatKey, hz.not_isNaN]
    exact (if_neg (by decide)).trans (if_pos hsmall)
  change decide (floatKey x ≤ floatKey y) = true ↔ _
  rw [decide_eq_true_iff, hkey hx, hkey hy]
  exact Nat.cast_le

end AbcTune.Number
