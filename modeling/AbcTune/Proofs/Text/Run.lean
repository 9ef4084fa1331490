import Mathlib.Data.List.DropRight
import Mathlib.Data.List.TakeWhile
import AbcTune.Number.Reading

/-! # Runs of characters

A run of characters of one class is cut off in front of a character of another class. Where the
characters are digits, the run writes a number. A text with no such run at its ends loses nothing
when they are cut off.
-/
namespace AbcTune

section Runs

variable {p : Char → Bool} {run rest : Text} (hrun : ∀ c ∈ run, p c = true)
  (hrest : ∀ c ∈ rest.head?, p c = false)

include hrest in
theorem takeWhile_eq_nil : rest.takeWhile p = [] := by
  cases rest with
  | nil => rfl
  | cons c rest => rw [List.takeWhile_cons, hrest c rfl]; rfl

include hrun hrest

theorem takeWhile_run : (run ++ rest).takeWhile p = run := by
  rw [List.takeWhile_append_of_pos hrun, takeWhile_eq_nil hrest, List.append_nil]

theorem dropWhile_run : (run ++ rest).dropWhile p = rest := by
  have h := List.takeWhile_append_dropWhile (p := p) (l := run ++ rest)
  rw [takeWhile_run hrun hrest] at h
  exact List.append_cancel_left h

end Runs

/-! ## The ends of a text -/

theorem Text.reverse_dropWhile_reverse {t : Text} {p : Char → Bool}
    (h : ∀ c ∈ t.getLast?, p c = false) : (t.reverse.dropWhile p).reverse = t := by
  refine List.rdropWhile_eq_self_iff.mpr fun hne => ?_
  rw [h _ (List.getLast?_eq_some_getLast hne)]
  exact Bool.false_ne_true

theorem Text.trim_of_ends {t : Text} (hfirst : ∀ c ∈ t.head?, isBlank c = false)
    (hlast : ∀ c ∈ t.getLast?, isBlank c = false) : trim t = t := by
  have hstart : trimStart t = t := by
    cases t with
    | nil => rfl
    | cons c t =>
      rw [trimStart, List.dropWhile_cons, hfirst c rfl]
      rfl
  rw [trim, hstart]
  exact reverse_dropWhile_reverse hlast

/-! ## Digits -/

/-- The number that digits write, or another where there are none. -/
def writtenNumber (absent : Nat) (digits : Text) : Nat :=
  if digits.isEmpty then absent else Number.ofDigits digits

end AbcTune
