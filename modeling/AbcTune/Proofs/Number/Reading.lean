import AbcTune.Number.Reading

/-! # Whole numbers read back

Digits are read as the number that they write, and the decimal digits of a number as that number.
-/
namespace AbcTune.Number

section Digits

variable {digits : Text} (hdigits : ∀ c ∈ digits, c.isDigit = true) (hne : digits ≠ [])

include hdigits hne

theorem readDigits?_of_isDigit : readDigits? digits = some (ofDigits digits) := by
  unfold readDigits?
  rw [if_pos]
  simp [hne, List.all_eq_true.mpr hdigits]

theorem readNat?_of_isDigit (most : Nat) :
    readNat? most digits = if ofDigits digits ≤ most then some (ofDigits digits) else none := by
  unfold readNat?
  split
  · next rest =>
    exact absurd (hdigits '+' List.mem_cons_self) (by decide)
  · dsimp only
    rw [readDigits?_of_isDigit hdigits hne]
    simp [Option.filter]

end Digits

theorem ofDigits_toDigits (n : Nat) : ofDigits (Nat.toDigits 10 n) = n := by
  have hfold : ∀ digits : Text, ofDigits digits = Nat.ofDigitChars 10 digits 0 := by
    intro digits
    unfold ofDigits Nat.ofDigitChars
    congr 1
    funext sofar c
    rw [Nat.mul_comm]
    rfl
  rw [hfold, Nat.ofDigitChars_ten_toDigits]

theorem isDigit_toDigits (n : Nat) : ∀ c ∈ Nat.toDigits 10 n, c.isDigit = true :=
  fun _ => Nat.isDigit_of_mem_toDigits (by decide) (by decide)

theorem readNat?_toDigits {n most : Nat} (h : n ≤ most) :
    readNat? most (Nat.toDigits 10 n) = some n := by
  rw [readNat?_of_isDigit (isDigit_toDigits n) Nat.toDigits_ne_nil, ofDigits_toDigits, if_pos h]

end AbcTune.Number
