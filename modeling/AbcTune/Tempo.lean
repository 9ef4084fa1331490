import AbcTune.Length

/-! # Tempos

A tempo is kept as quarter notes per minute, whatever note value it was written for, with an
optional word such as Allegro.
-/
namespace AbcTune

structure Tempo (β : Type) where
  bpm : β
  text : Option String

namespace Tempo

variable {β : Type} [Beats β]

def standard : Tempo β := ⟨120.0, none⟩

def secondsPerBeat (t : Tempo β) : β := 60.0 / t.bpm

/-- The last quoted text and all that stands outside quotes; what has been read of them is in
`quoted`, when a quote is open, and in `outside`, both in reverse. -/
def splitQuotes (text : Option Text) (quoted : Option Text) (outside : Text) :
    Text → Option Text × Text
  | [] => (text, outside.reverse)
  | '"' :: rest =>
    match quoted with
    | none => splitQuotes text (some []) outside rest
    | some q => splitQuotes (some q.reverse) none outside rest
  | c :: rest =>
    match quoted with
    | none => splitQuotes text none (c :: outside) rest
    | some q => splitQuotes text (some (c :: q)) outside rest

/-- The sum of the note values to the left of an equals sign. -/
def readUnits? (t : Text) : Option Float :=
  ((Text.words t).mapM readFraction?).map Beats.sum

/-- Reads a tempo such as `1/4=120`, `1/4 1/8=100`, `120` or `"Allegro" 3/8=80`. A number alone
counts `beatUnit`s, and a word alone means the standard tempo. -/
def read? (t : Text) (beatUnit : Float) : Option (Tempo Float) :=
  let (text, outside) := splitQuotes none none [] t
  let text := text.map String.ofList
  let outside := Text.trim outside
  if outside.isEmpty then text.map fun _ => { standard with text }
  else do
    let (units, number) ← match Text.cutAt '=' outside with
      | some (left, right) => (readUnits? left).map (·, Text.trim right)
      | none => some (beatUnit, outside)
    let bpm ← Number.readFloat? number
    if bpm ≤ 0.0 ∨ units ≤ 0.0 then none else some ⟨bpm * units * 4.0, text⟩

end Tempo
end AbcTune
