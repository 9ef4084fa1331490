import AbcTune.Beat
import Mathlib

/-! # Doubles in the order of their bits

A double that is neither negative nor no number is told by its bits, and the greater one has the
greater bits. A mantissa at its exponent has its place among them, and rounding gives the place of
the rounded mantissa, or that of infinity if that comes first.
-/
namespace AbcTune.Number
open Float.Model Float.Model.UnpackedFloat

/-- The bits of a double as a number. -/
def bits (x : Float) : Nat := x.toBits.toNat

/-- The bits of positive infinity. -/
def infinite : Nat := 2047 * 2 ^ 52

/-- Doubles from positive zero to positive infinity. -/
def Nonneg (x : Float) : Prop := bits x ≤ infinite

instance (x : Float) : Decidable (Nonneg x) := inferInstanceAs (Decidable (bits x ≤ infinite))

/-- The bits of a mantissa at its exponent. -/
def slot (m : Nat) (e : Int) : Nat := (e + 1074).toNat * 2 ^ 52 + m

/-- A mantissa of full size, or a smaller one at the least exponent. -/
structure Canonical (m : Nat) (e : Int) : Prop where
  least : -1074 ≤ e
  small : m < 2 ^ 53
  full : e = -1074 ∨ 2 ^ 52 ≤ m

theorem toNat_packComponents (exponent : BitVec 11) (mantissa : BitVec 52) :
    (packComponents .binary64 .positive exponent mantissa).toNat =
      exponent.toNat * 2 ^ 52 + mantissa.toNat := by
  unfold packComponents
  rw [BitVec.toNat_append, ← Nat.shiftLeft_add_eq_or_of_lt mantissa.isLt, Nat.shiftLeft_eq,
    BitVec.toNat_append]
  simp [Sign.toBitVec]

theorem toNat_unpackMantissa (b : BitVec 64) :
    (@unpackMantissa .binary64 b).toNat = b.toNat % 2 ^ 52 := by
  simp [unpackMantissa, BitVec.extractLsb_toNat]

theorem toNat_unpackExponent (b : BitVec 64) :
    (@unpackExponent .binary64 b).toNat = b.toNat / 2 ^ 52 % 2 ^ 11 := by
  simp [unpackExponent, BitVec.extractLsb_toNat, Nat.shiftRight_eq_div_pow]

theorem toNat_unpackSign (b : BitVec 64) :
    (@unpackSign .binary64 b).toNat = b.toNat / 2 ^ 63 % 2 := by
  simp [unpackSign, BitVec.extractLsb_toNat, Nat.shiftRight_eq_div_pow]

theorem finite_congr {s : Sign} {m n : Nat} {e f : Int} (hm : m = n) (he : e = f) {hpos : 0 < m} :
    UnpackedFloat.finite s m e hpos = .finite s n f (hm ▸ hpos) := by
  subst hm he; rfl

theorem unpack_cases {x : Float} (h : Nonneg x) :
    bits x = infinite ∧ x.toModel.unpack = .infinity .positive ∨
      bits x = 0 ∧ x.toModel.unpack = .zero .positive ∨
      ∃ m e hm, Canonical m e ∧ bits x = slot m e ∧
        x.toModel.unpack = .finite .positive m e hm := by
  obtain ⟨b,hb⟩ : ∃ b, x.toModel.toBits.toBitVec = b := ⟨_,rfl⟩
  have hx : bits x = b.toNat := by rw [← hb]; rfl
  have hmant := toNat_unpackMantissa b
  have hexp := toNat_unpackExponent b
  have hsign : Sign.ofBitVec (@unpackSign .binary64 b) = .positive := by
    have hs := toNat_unpackSign b
    unfold Nonneg infinite at h
    have hzero : @unpackSign .binary64 b = 0#1 := BitVec.eq_of_toNat_eq (by
      rw [hs]; simp; omega)
    rw [hzero]; rfl
  unfold Float.Model.unpack UnpackedFloat.unpack
  rw [hb]
  unfold Nonneg infinite at h
  rw [hx] at h ⊢
  simp only [hsign]
  by_cases hlast : @unpackExponent .binary64 b = -1#_
  · have hn : (@unpackExponent .binary64 b).toNat = 2047 := by rw [hlast]; rfl
    have hz : @unpackMantissa .binary64 b = 0#_ := BitVec.eq_of_toNat_eq (by
      rw [hmant]; simp; omega)
    left
    rw [if_pos hlast, if_pos hz]
    exact ⟨by unfold infinite; omega,rfl⟩
  · rw [if_neg hlast]
    have hn : (@unpackExponent .binary64 b).toNat ≠ 2047 := fun hn =>
      hlast (BitVec.eq_of_toNat_eq hn)
    right
    by_cases hfirst : @unpackExponent .binary64 b = 0#_
    · have hn0 : (@unpackExponent .binary64 b).toNat = 0 := by rw [hfirst]; rfl
      rw [if_pos hfirst]
      by_cases hz : @unpackMantissa .binary64 b = 0#_
      · left
        rw [dif_pos hz]
        have : (@unpackMantissa .binary64 b).toNat = 0 := by rw [hz]; rfl
        exact ⟨by omega,rfl⟩
      · right
        rw [dif_neg hz]
        have hm : (@unpackMantissa .binary64 b).toNat ≠ 0 := fun hm =>
          hz (BitVec.eq_of_toNat_eq hm)
        refine ⟨b.toNat % 2 ^ 52,-1074,by omega,⟨le_rfl,by omega,.inl rfl⟩,?_,?_⟩
        · unfold slot; omega
        · refine finite_congr hmant ?_
          change ((@unpackExponent .binary64 b).toNat : Int) - (1023 + 52) + 1 = -1074
          omega
    · right
      rw [if_neg hfirst]
      have hn0 : (@unpackExponent .binary64 b).toNat ≠ 0 := fun hn =>
        hfirst (BitVec.eq_of_toNat_eq hn)
      have happend : (1#1 ++ @unpackMantissa .binary64 b).toNat =
          2 ^ 52 + b.toNat % 2 ^ 52 := by
        rw [BitVec.toNat_append, ← Nat.shiftLeft_add_eq_or_of_lt (BitVec.isLt _), hmant]
        rfl
      refine ⟨_,b.toNat / 2 ^ 52 - 1075,by omega,⟨by omega,?_,.inr ?_⟩,?_,finite_congr happend ?_⟩
      · omega
      · omega
      · unfold slot; omega
      · change ((@unpackExponent .binary64 b).toNat : Int) - (1023 + 52) = _
        omega

theorem bits_pack (u : UnpackedFloat) :
    bits (.ofModel (.pack u)) = (UnpackedFloat.pack .binary64 u).toNat := rfl

theorem bits_infinity : bits (.ofModel (.pack (.infinity .positive))) = infinite := by decide

theorem bits_zero : bits (.ofModel (.pack (.zero .positive))) = 0 := by decide

/-- A canonical mantissa keeps its place, and beyond the last exponent stands infinity. -/
theorem bits_finite {m : Nat} {e : Int} (h : Canonical m e) (hm : 0 < m) :
    bits (.ofModel (.pack (.finite .positive m e hm))) = min infinite (slot m e) := by
  have hleast := h.least
  have hsmall := h.small
  have hexponent : (e + Format.binary64.exponentBias +
      Format.binary64.mantissaBitsWithoutImplicit).toNat = (e + 1075).toNat := by
    change (e + 1023 + 52).toNat = _
    congr 1
    omega
  rw [bits_pack, UnpackedFloat.pack]
  simp only [hexponent]
  unfold slot infinite
  split
  · next hover =>
    have hover : 2048 ≤ (e + 1075).toNat + 1 := hover
    have hfull := h.full
    rw [packedInfinity, toNat_packComponents]
    change 2047 * 2 ^ 52 + 0 = _
    omega
  · next hover =>
    have hover : ¬2048 ≤ (e + 1075).toNat + 1 := hover
    split
    · next hnormal =>
      have hfull : 2 ^ 52 ≤ m := by
        have hlog : m.log2 = 52 := Nat.succ.inj hnormal
        exact hlog ▸ Nat.log2_self_le hm.ne'
      rw [toNat_packComponents]
      simp only [BitVec.toNat_ofNat]
      omega
    · next hnormal =>
      have hpart : m < 2 ^ 52 := by
        by_contra hfull
        have hlow := (Nat.le_log2 hm.ne').mpr (not_lt.mp hfull)
        have hhigh := (Nat.log2_lt hm.ne').mpr hsmall
        exact hnormal (congrArg Nat.succ (by omega : m.log2 = 52))
      have he := h.full.resolve_right (by omega)
      rw [toNat_packComponents]
      simp only [BitVec.toNat_ofNat]
      omega

/-! ## Rounding -/

/-- The exponent that a mantissa is rounded at. -/
def target (m : Nat) (e : Int) : Int := max (m.log2 + e - 52) (-1074)

theorem targetExponent_eq (m : Nat) (e : Int) :
    Format.binary64.targetExponent (totalExponent m e) = target m e := by
  have hbits : Format.binary64.mantissaBits = 53 := rfl
  have hleast : Format.binary64.minExponent = -1074 := rfl
  rw [Format.targetExponent, totalExponent, target, hbits, hleast]
  congr 1
  omega

theorem mantissa_shift (em : ExtendedMantissa) (n : Nat) :
    (em >>> n).mantissa = em.mantissa / 2 ^ n := by
  induction n with
  | zero => rw [Nat.pow_zero, Nat.div_one]; rfl
  | succ n ih =>
    have hstep : (em >>> (n + 1)).mantissa = (em >>> n).mantissa / 2 := rfl
    rw [hstep, ih, Nat.div_div_eq_div_mul, ← Nat.pow_succ]

theorem mantissa_ofAccuracy (m : Nat) (a : Accuracy) :
    (ExtendedMantissa.ofMantissaAndAccuracy m a).mantissa = m := by
  cases a with
  | exact => rfl
  | inexact o => cases o <;> rfl

theorem le_roundedMantissa (em : ExtendedMantissa) : em.mantissa ≤ em.roundedMantissa := by
  unfold ExtendedMantissa.roundedMantissa Accuracy.roundToNearestEven
  split <;> omega

theorem roundedMantissa_le (em : ExtendedMantissa) : em.roundedMantissa ≤ em.mantissa + 1 := by
  unfold ExtendedMantissa.roundedMantissa Accuracy.roundToNearestEven
  split <;> omega

def rounded (m : Nat) (e : Int) (a : Accuracy) : Nat :=
  (shiftToTargetExponent .binary64 m e a).1.roundedMantissa

theorem shiftToTarget_eq (m : Nat) (e : Int) (a : Accuracy) :
    shiftToTargetExponent .binary64 m e a =
      (ExtendedMantissa.ofMantissaAndAccuracy m a >>> (target m e - e).toNat,
        e + (target m e - e).toNat) := by
  unfold shiftToTargetExponent shiftToExponent
  rw [targetExponent_eq]

theorem floor_eq (m : Nat) (e : Int) (a : Accuracy) :
    (shiftToTargetExponent .binary64 m e a).1.mantissa = m / 2 ^ (target m e - e).toNat := by
  rw [shiftToTarget_eq, mantissa_shift, mantissa_ofAccuracy]

theorem le_rounded (m : Nat) (e : Int) (a : Accuracy) :
    m / 2 ^ (target m e - e).toNat ≤ rounded m e a :=
  floor_eq m e a ▸ le_roundedMantissa _

theorem rounded_le (m : Nat) (e : Int) (a : Accuracy) :
    rounded m e a ≤ m / 2 ^ (target m e - e).toNat + 1 :=
  floor_eq m e a ▸ roundedMantissa_le _

theorem rounded_le_full (m : Nat) (e : Int) (a : Accuracy) : rounded m e a ≤ 2 ^ 53 := by
  have hfloor : m / 2 ^ (target m e - e).toNat < 2 ^ 53 := by
    rw [Nat.div_lt_iff_lt_mul (by positivity), ← Nat.pow_add]
    refine lt_of_lt_of_le Nat.lt_log2_self (Nat.pow_le_pow_right (by decide) ?_)
    unfold target
    omega
  have := rounded_le m e a
  omega

theorem full_le_rounded {m : Nat} {e : Int} (a : Accuracy) (he : e ≤ target m e)
    (hleast : target m e ≠ -1074) : 2 ^ 52 ≤ rounded m e a := by
  have hm : m ≠ 0 := by
    rintro rfl
    rw [target, Nat.log2_zero] at he hleast
    omega
  refine le_trans ?_ (le_rounded m e a)
  rw [Nat.le_div_iff_mul_le (by positivity), ← Nat.pow_add]
  refine le_trans (Nat.pow_le_pow_right (by decide) ?_) (Nat.log2_self_le hm)
  unfold target at he hleast ⊢
  omega

/-- Once rounded, a mantissa that is not beyond its size is shifted no further. -/
theorem shiftToTarget_small {m : Nat} {e : Int} (hm : m < 2 ^ 53) (he : -1074 ≤ e) :
    shiftToTargetExponent .binary64 m e .exact = (⟨m,false,false⟩, e) := by
  have htarget : (target m e - e).toNat = 0 := by
    unfold target
    rcases Nat.eq_zero_or_pos m with rfl | hpos
    · rw [Nat.log2_zero]; omega
    · have := (Nat.log2_lt hpos.ne').mpr hm
      omega
  rw [shiftToTarget_eq, htarget, Nat.cast_zero, add_zero]
  rfl

/-- A mantissa that rounding has carried to the next size is halved. -/
theorem shiftToTarget_carried {e : Int} (he : -1074 ≤ e) :
    shiftToTargetExponent .binary64 (2 ^ 53) e .exact = (⟨2 ^ 52,false,false⟩, e + 1) := by
  have htarget : (target (2 ^ 53) e - e).toNat = 1 := by
    unfold target
    rw [Nat.log2_two_pow]
    omega
  rw [shiftToTarget_eq, htarget]
  rfl

/-- Rounding gives the slot of the rounded mantissa, or infinity. -/
theorem bits_round {m : Nat} {e : Int} (a : Accuracy) (he : e ≤ target m e) :
    bits (.ofModel (.pack (roundWithAccuracy .binary64 .positive m e a))) =
      min infinite (slot (rounded m e a) (target m e)) := by
  have hsnd : (shiftToTargetExponent .binary64 m e a).2 = target m e := by
    rw [shiftToTarget_eq]
    dsimp only
    omega
  have hleast : -1074 ≤ target m e := by unfold target; omega
  have hfull := full_le_rounded a he
  have hsmall := rounded_le_full m e a
  unfold roundWithAccuracy
  unfold rounded at hfull hsmall ⊢
  generalize shiftToTargetExponent .binary64 m e a = shifted at *
  obtain ⟨em,e'⟩ := shifted
  dsimp only at hsnd hfull hsmall ⊢
  subst hsnd
  -- a mantissa that is rounded up to the next power of two no longer fits, and is shifted again
  rcases hsmall.lt_or_eq with hlt | heq
  · rw [shiftToTarget_small hlt hleast]
    dsimp only
    split
    · next hzero =>
      rw [bits_zero, hzero]
      have htarget : target m e = -1074 := by
        by_contra h
        have := hfull h
        omega
      rw [htarget]
      rfl
    · refine bits_finite ⟨hleast,hlt,?_⟩ _
      by_cases h : target m e = -1074
      · exact .inl h
      · exact .inr (hfull h)
  · rw [heq, shiftToTarget_carried hleast]
    have hslot : slot (2 ^ 52) (target m e + 1) = slot (2 ^ 53) (target m e) := by
      unfold slot
      omega
    rw [← hslot]
    exact bits_finite ⟨by omega,by decide,.inr le_rfl⟩ (by decide)

/-- Rounding goes below no double that the exact number is not below. -/
theorem slot_le_rounded {m₀ m : Nat} {e₀ e : Int} (a : Accuracy) (h : Canonical m₀ e₀)
    (hpos : 0 < m₀) (hexponent : e ≤ e₀) (hle : m₀ * 2 ^ (e₀ - e).toNat ≤ m)
    (he : e ≤ target m e) : slot m₀ e₀ ≤ slot (rounded m e a) (target m e) := by
  have hm : m ≠ 0 := (lt_of_lt_of_le (by positivity) hle).ne'
  have htarget : e₀ ≤ target m e := by
    rcases h.full with hleast | hfull
    · rw [hleast]
      exact le_max_right _ _
    · have hlog : 52 + (e₀ - e).toNat ≤ m.log2 := by
        rw [Nat.le_log2 hm, Nat.pow_add]
        exact le_trans (Nat.mul_le_mul_right _ hfull) hle
      refine le_trans ?_ (le_max_left _ _)
      omega
  have hsmall := h.small
  have hleast := h.least
  rcases htarget.lt_or_eq with hlt | heq
  · have hfull := full_le_rounded a he (by omega)
    unfold slot
    omega
  · have hfloor : m₀ ≤ rounded m e a := by
      refine le_trans ?_ (le_rounded m e a)
      rw [← heq, Nat.le_div_iff_mul_le (by positivity)]
      exact hle
    rw [← heq]
    exact Nat.add_le_add_left hfloor _

end AbcTune.Number
