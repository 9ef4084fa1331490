import AbcTune.Number.Display
import AbcTune.Text.Blank

/-! # Written numbers

A number is written without blanks, whatever its digits are, so that it can stand in a line.
-/
namespace AbcTune

/-! ## Texts without blanks -/

namespace Text

/-- No blank stands in the text. -/
def Solid (t : Text) : Prop := ∀ c ∈ t, isBlank c = false

instance (t : Text) : Decidable (Solid t) :=
  decidable_of_iff (t.all fun c => !isBlank c) (by simp [Solid])

variable {s t : Text}

theorem solid_append : Solid (s ++ t) ↔ Solid s ∧ Solid t := List.forall_mem_append

theorem solid_cons {c : Char} : Solid (c :: t) ↔ isBlank c = false ∧ Solid t :=
  List.forall_mem_cons

theorem Solid.sublist (h : Solid t) (hs : s.Sublist t) : Solid s :=
  fun c hc => h c (hs.subset hc)

theorem isBlank_of_isDigit {c : Char} (h : c.isDigit = true) : isBlank c = false := by
  simp only [Char.isDigit, Bool.and_eq_true, decide_eq_true_eq, ge_iff_le,
    UInt32.le_iff_toNat_le] at h
  have hlow : 48 ≤ c.toNat := h.1
  have hhigh : c.toNat ≤ 57 := h.2
  simp [isBlank]
  omega

theorem solid_toDigits (n : Nat) : Solid (Nat.toDigits 10 n) := fun _ hc =>
  isBlank_of_isDigit (Nat.isDigit_of_mem_toDigits (by decide) (by decide) hc)

end Text

/-! ## Decimals -/

namespace Number
open Text

theorem solid_zeros (n : Nat) : Solid (zeros n) := fun c hc => by
  rw [List.eq_of_mem_replicate hc]
  decide

theorem Decimal.solid_plain {d : Decimal} (h : Solid d.digits) : Solid d.plain := by
  have hpoint : isBlank '.' = false := by decide
  unfold Decimal.plain
  split
  · exact solid_cons.mpr ⟨by decide,solid_cons.mpr ⟨hpoint,solid_append.mpr ⟨solid_zeros _,h⟩⟩⟩
  · dsimp only
    split
    · exact solid_append.mpr ⟨h,solid_zeros _⟩
    · exact solid_append.mpr ⟨h.sublist (List.take_sublist _ _),
        solid_cons.mpr ⟨hpoint,h.sublist (List.drop_sublist _ _)⟩⟩

theorem Decimal.solid_ofScaled (k : Nat) (place : Int) : Solid (ofScaled k place).digits := by
  refine (solid_toDigits k).sublist ?_
  rw [← List.reverse_sublist]
  simpa [ofScaled] using List.dropWhile_sublist _

theorem BinaryFormat.solid_shortest (f : BinaryFormat) (tie : Tie) (mantissa : Nat)
    (exponent : Int) : Solid (String.ofList (f.shortest tie mantissa exponent).plain).toList := by
  rw [String.toList_ofList]
  exact Decimal.solid_plain (Decimal.solid_ofScaled _ _)

/-! ## Binary numbers -/

theorem solid_signed {s : String} (h : Solid s.toList) (negative : Bool) :
    Solid (signed negative s).toList := by
  unfold signed
  split
  · rw [String.toList_append]
    exact solid_append.mpr ⟨by decide,h⟩
  · exact h

theorem Binary.solid_write {zero : String} (hzero : Solid zero.toList)
    {form : Nat → Int → String} (h : ∀ mantissa exponent, Solid (form mantissa exponent).toList)
    (b : Binary) : Solid (b.write words zero form).toList := by
  cases b with
  | notNumber =>
    change Solid "NaN".toList
    decide
  | infinite negative =>
    have hword : Solid words.infinity.toList := by decide
    exact solid_signed hword negative
  | finite negative mantissa exponent =>
    refine solid_signed ?_ negative
    split
    · exact hzero
    · exact h mantissa exponent

theorem solid_plain (x : Float) : Solid (plain x).toList :=
  Binary.solid_write (by decide) (double.solid_shortest .up) _

theorem solid_plainSingle (x : Float32) : Solid (plainSingle x).toList :=
  Binary.solid_write (by decide) (single.solid_shortest .up) _

/-! ## Two places -/

theorem solid_toString (n : Nat) : Solid (toString n).toList := by
  have hdigits : (toString n).toList = Nat.toDigits 10 n := Nat.toList_repr
  exact hdigits ▸ solid_toDigits n

theorem solid_hundredths (n : Nat) : Solid (hundredths n).toList := by
  have hpoint : Solid ".".toList := by decide
  unfold hundredths
  dsimp only
  rw [String.toList_append, String.toList_append, String.toList_append, solid_append,
    solid_append, solid_append]
  refine ⟨⟨⟨solid_toString _,hpoint⟩,?_⟩,solid_toString _⟩
  split <;> decide

theorem Binary.solid_twoPlaces (b : Binary) : Solid b.twoPlaces.toList :=
  b.solid_write (by decide) fun _ _ => solid_hundredths _

end Number
end AbcTune
