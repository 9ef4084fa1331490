import Mathlib.Algebra.BigOperators.Ring.List
import Mathlib.Algebra.Order.Field.Basic
import Mathlib.Algebra.Order.Field.Rat
import AbcTune.Proofs.Beat.Exact
import AbcTune.Proofs.Text.Run
import AbcTune.Proofs.Token.Plain

/-! # Lengths as they are written

A written length is digits, and slashes each with digits behind it. It is cut off where neither a
digit nor a slash follows, and it is read as the number in front divided by one number after
another.
-/
namespace AbcTune

variable {rest : Text}

/-- A length as it is written: digits, and slashes each with digits behind it. -/
structure LengthText where
  digits : Text
  divisors : List Text
  isDigit_digits : ∀ c ∈ digits, c.isDigit = true
  isDigit_divisors : ∀ d ∈ divisors, ∀ c ∈ d, c.isDigit = true

/-- Slashes, each with the digits of a divisor behind it. -/
def slashText (divisors : List Text) : Text := divisors.flatMap ('/' :: ·)

namespace LengthText

def text (l : LengthText) : Text := l.digits ++ slashText l.divisors

/-- The digits or the digits of a divisor write zero. -/
def IsZero (l : LengthText) : Prop :=
  writtenNumber 1 l.digits = 0 ∨ ∃ d ∈ l.divisors, writtenNumber 2 d = 0

instance (l : LengthText) : Decidable l.IsZero := inferInstanceAs (Decidable (_ ∨ _))

/-- The number in front, divided by all divisors; a slash alone divides by two. -/
def value (l : LengthText) : Rat :=
  (writtenNumber 1 l.digits : Rat) / ((l.divisors.map (writtenNumber 2)).prod : Nat)

end LengthText

theorem not_isDigit_head?_slashText (divisors : List Text) :
    ∀ c ∈ (slashText divisors).head?, c.isDigit = false := by
  intro c hc
  cases divisors with
  | nil => cases hc
  | cons d divisors =>
    cases hc
    rfl

section Lengths

variable {divisors : List Text} (hdivisors : ∀ d ∈ divisors, ∀ c ∈ d, c.isDigit = true)
  (hrest : ∀ c ∈ rest.head?, c.isDigit = false ∧ c ≠ '/')

include hdivisors

theorem divisors?_slashText : divisors? (slashText divisors) = some divisors := by
  induction divisors with
  | nil =>
    rw [slashText, List.flatMap_nil, divisors?]
  | cons d divisors ih =>
    obtain ⟨hd,hdivisors⟩ := List.forall_mem_cons.mp hdivisors
    have htext : slashText (d :: divisors) = '/' :: (d ++ slashText divisors) := rfl
    have hnext := not_isDigit_head?_slashText divisors
    rw [htext, divisors?, takeWhile_run hd hnext, dropWhile_run hd hnext, ih hdivisors]
    rfl

end Lengths

theorem digitsOr_eq (absent : Nat) (digits : Text) :
    digitsOr (absent : Rat) digits = writtenNumber absent digits := by
  unfold digitsOr writtenNumber
  split <;> rfl

/-- Division by one divisor after another is division by their product, if none is zero. -/
theorem divideBy?_eq (x : Rat) (divisors : List Text) :
    divideBy? x divisors = if ∃ d ∈ divisors, writtenNumber 2 d = 0 then none
      else some (x / ((divisors.map (writtenNumber 2)).prod : Nat)) := by
  induction divisors generalizing x with
  | nil => simp [divideBy?]
  | cons d divisors ih =>
    have hzero : (!d.isEmpty && decide (Number.ofDigits d = 0)) = true ↔ writtenNumber 2 d = 0 := by
      unfold writtenNumber
      cases d.isEmpty <;> simp
    have htwo : (2.0 : Rat) = (2 : Nat) := by norm_num
    rw [divideBy?, htwo, digitsOr_eq, ih]
    by_cases hd : writtenNumber 2 d = 0
    · rw [if_pos (hzero.mpr hd), if_pos ⟨d,List.mem_cons_self,hd⟩]
    · rw [if_neg (mt hzero.mp hd)]
      have hmem : (∃ e ∈ d :: divisors, writtenNumber 2 e = 0) ↔
          ∃ e ∈ divisors, writtenNumber 2 e = 0 := by simp [hd]
      simp only [hmem, List.map_cons, List.prod_cons, Nat.cast_mul, div_div]

namespace LengthText

variable (l : LengthText)

/-- A length is read as the number in front divided by the divisors, if none of them is zero. -/
theorem readLength?_text :
    readLength? l.text = if l.IsZero then none else some l.value := by
  have hnext := not_isDigit_head?_slashText l.divisors
  have hone : (1.0 : Rat) = (1 : Nat) := by norm_num
  rw [readLength?, text, takeWhile_run l.isDigit_digits hnext,
    dropWhile_run l.isDigit_digits hnext, divisors?_slashText l.isDigit_divisors, hone,
    digitsOr_eq]
  simp only [Option.bind_eq_bind, Option.bind_some, divideBy?_eq]
  by_cases hdivisors : ∃ d ∈ l.divisors, writtenNumber 2 d = 0
  · have hzero : l.IsZero := .inr hdivisors
    rw [if_pos hdivisors, if_pos hzero]
    rfl
  · have hprod : (l.divisors.map (writtenNumber 2)).prod ≠ 0 := by
      simpa [List.prod_eq_zero_iff] using hdivisors
    have hpos : (0 : Rat) < ((l.divisors.map (writtenNumber 2)).prod : Nat) := by
      exact_mod_cast Nat.pos_of_ne_zero hprod
    rw [if_neg hdivisors, Option.bind_some, Beats.zero_eq]
    by_cases hdigits : writtenNumber 1 l.digits = 0
    · have hzero : l.IsZero := .inl hdigits
      simp [hdigits, hzero]
    · have hzero : ¬l.IsZero := not_or.mpr ⟨hdigits,hdivisors⟩
      have hnumber : (0 : Rat) < writtenNumber 1 l.digits := by
        exact_mod_cast Nat.pos_of_ne_zero hdigits
      rw [if_pos (div_pos hnumber hpos), if_neg hzero]
      rfl

theorem isDigit_or_eq_of_mem_text {c : Char} (hc : c ∈ l.text) : c.isDigit = true ∨ c = '/' := by
  rcases List.mem_append.mp hc with hc | hc
  · exact .inl (l.isDigit_digits c hc)
  · obtain ⟨d,hd,hc⟩ := List.mem_flatMap.mp hc
    rcases List.mem_cons.mp hc with rfl | hc
    · exact .inr rfl
    · exact .inl (l.isDigit_divisors d hd c hc)

end LengthText

/-- The digits and slashes at the front of a text are a length. -/
theorem exists_slashText (t : Text) :
    ∃ divisors : List Text, (∀ d ∈ divisors, ∀ c ∈ d, c.isDigit = true) ∧
      t.take (Token.slashRun t) = slashText divisors := by
  induction t using Token.slashRun.induct with
  | case1 rest ih =>
    obtain ⟨divisors,hdivisors,htext⟩ := ih
    refine ⟨rest.takeWhile Char.isDigit :: divisors,?_,?_⟩
    · exact List.forall_mem_cons.mpr ⟨fun _ hc => List.mem_takeWhile_imp hc,hdivisors⟩
    · rw [Token.slashRun_cons, Nat.add_assoc, Nat.add_comm 1, List.take_succ_cons, List.take_add,
        htext, Token.digitRun, Token.take_runLength]
      rfl
  | case2 t ht =>
    have hnone : Token.slashRun t = 0 := by
      cases t with
      | nil => exact Token.slashRun_nil
      | cons c t => exact Token.slashRun_of_ne (fun hc => ht t (by rw [hc])) t
    exact ⟨[],by simp,by rw [hnone]; rfl⟩

theorem exists_lengthText (t : Text) :
    ∃ l : LengthText, t.take (Token.lengthRun t) = l.text := by
  obtain ⟨divisors,hdivisors,htext⟩ := exists_slashText (t.drop (Token.digitRun t))
  refine ⟨⟨t.takeWhile Char.isDigit,divisors,fun _ hc => List.mem_takeWhile_imp hc,hdivisors⟩,?_⟩
  rw [Token.lengthRun, List.take_add, htext, Token.digitRun, Token.take_runLength]
  rfl

end AbcTune
