import AbcTune.Number.Reading

/-! # Part sequences

A tune may be divided into parts named by capitals, and its header may say in which order they
are played. In a sequence such as `(AB)2C` parts and groups may have a repeat count, and full
stops, spaces and tabs separate.
-/
namespace AbcTune

inductive PartProblem where
  | unexpected (c : Char)
  | unclosed
  | badCount (digits : Text)
  deriving DecidableEq, Repr

def PartProblem.message : PartProblem → String
  | .unexpected c => "Unexpected '" ++ String.singleton c ++ "' in part sequence"
  | .unclosed => "Unclosed '(' in part sequence"
  | .badCount digits => "Invalid repeat count '" ++ String.ofList digits ++ "' in part sequence"

namespace PartSequence

def mostRepeats : Nat := 64

/-- Reads the count behind an item; none means 1. -/
def readCount (digits : Text) : Except PartProblem Nat :=
  if digits.isEmpty then .ok 1
  else
    let n := Number.ofDigits digits
    if 1 ≤ n ∧ n ≤ mostRepeats then .ok n else .error (.badCount digits)

/-- A sequence played a number of times. -/
def repeated (count : Nat) (item : List Char) : List Char := (List.replicate count item).flatten

def isSeparator (c : Char) : Bool := c = '.' || c = ' ' || c = '\t'

/-- Reads on in a group whose labels so far are `current`, with the labels before each group
around it in `outer`, innermost first. -/
def readFrom (outer : List (List Char)) (current : List Char) :
    Text → Except PartProblem (List Char)
  | [] => if outer.isEmpty then .ok current else .error .unclosed
  | c :: rest =>
    if c.isUpper then do
      let n ← readCount (rest.takeWhile Char.isDigit)
      readFrom outer (current ++ repeated n [c]) (rest.dropWhile Char.isDigit)
    else if c = '(' then readFrom (current :: outer) [] rest
    else if isSeparator c then readFrom outer current rest
    else match c, outer with
      | ')', before :: outer => do
        let n ← readCount (rest.takeWhile Char.isDigit)
        readFrom outer (before ++ repeated n current) (rest.dropWhile Char.isDigit)
      | _, _ => .error (.unexpected c)
termination_by t => t.length
decreasing_by
  · exact Nat.lt_succ_of_le (Text.length_dropWhile_le _ _)
  · exact Nat.lt_succ_self _
  · exact Nat.lt_succ_self _
  · exact Nat.lt_succ_of_le (Text.length_dropWhile_le _ _)

/-- The labels that a sequence plays, in order. -/
def read (t : Text) : Except PartProblem (List Char) := readFrom [] [] t

end PartSequence

/-- A part as it is written: its label, and the beat where all voices start it. -/
structure Section (β : Type) where
  label : Char
  start : β

end AbcTune
