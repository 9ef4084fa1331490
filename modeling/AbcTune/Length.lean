import AbcTune.Beat
import AbcTune.Number.Reading

/-! # Lengths of notes

A unit note length is a fraction of a whole note. The length behind a note multiplies it: digits,
then any number of slashes each with a divisor, where a slash alone halves.
-/
namespace AbcTune

/-- Reads a positive fraction such as `1/8`, or a positive number. -/
def readFraction? (t : Text) : Option Float := do
  let t := Text.trim t
  let value ← match Text.cutAt '/' t with
    | some (above, below) => do
      let num ← Number.readFloat? (Text.trim above)
      let den ← Number.readFloat? (Text.trim below)
      if den == 0.0 then none else some (num / den)
    | none => Number.readFloat? t
  if 0.0 < value then some value else none

/-- Where each divisor of a length begins: the digits after each slash, and whether the text
holds nothing else. -/
def divisors? (t : Text) : Option (List Text) :=
  match t with
  | [] => some []
  | '/' :: rest =>
    (divisors? (rest.dropWhile Char.isDigit)).map (rest.takeWhile Char.isDigit :: ·)
  | _ => none
termination_by t.length
decreasing_by exact Nat.lt_succ_of_le (Text.length_dropWhile_le _ _)

variable {β : Type} [Beats β]

/-- The number written by a run of digits, or `absent` when there are none. -/
def digitsOr (absent : β) (digits : Text) : β :=
  if digits.isEmpty then absent else Beats.ofNat (Number.ofDigits digits)

/-- Divides by each divisor in turn; none of them may be zero. -/
def divideBy? (length : β) : List Text → Option β
  | [] => some length
  | d :: rest =>
    if !d.isEmpty && Number.ofDigits d = 0 then none else divideBy? (length / digitsOr 2.0 d) rest

/-- Reads the length behind a note: 1 if nothing is written, `3/2`, `/` for a half, `//4`. -/
def readLength? (t : Text) : Option β := do
  let ds ← divisors? (t.dropWhile Char.isDigit)
  let length ← divideBy? (digitsOr (1.0 : β) (t.takeWhile Char.isDigit)) ds
  if (0.0 : β) < length then some length else none

theorem readLength?_pos {t : Text} {length : β} (h : readLength? t = some length) :
    (0.0 : β) < length := by
  simp only [readLength?, Option.bind_eq_bind, Option.bind_eq_some_iff] at h
  obtain ⟨ds,-,value,-,hvalue⟩ := h
  split at hvalue
  · next hpos => exact Option.some.inj hvalue ▸ hpos
  · cases hvalue

end AbcTune
