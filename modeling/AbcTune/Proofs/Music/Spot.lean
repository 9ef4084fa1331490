import AbcTune.Part
import AbcTune.Proofs.Beat.Moderate
import AbcTune.Proofs.Voice.Bounds

/-! # Spots in moderate music

A spot says what has been written before it, as far as that decides how large the numbers of the
notes may become. Moderate music has numbers of few digits, chords of few notes that are closed on
their line, and marks of broken rhythm only behind a note, chord or rest of their own. At every
spot of it all positions and lengths are bounded.
-/
namespace AbcTune

open Number

/-- The most times that the tuplets of a tune may double notes, all of them together. -/
def mostDoublings : Nat := 200

/-- The longest part sequence, with its repeats written out. -/
def mostParts : Nat := 2 ^ 20

structure Spot where
  /-- Tokens so far. -/
  tokens : Nat
  /-- How many times the tuplets so far double notes at most. -/
  doublings : Nat
  /-- Notes so far of the chord that is open. -/
  chord : Option Nat
  /-- Whether a grace group is open. -/
  grace : Bool
  /-- Whether broken rhythm may follow: there was a note, chord or rest since the line began or a
  field was set, and no mark since. -/
  behind : Bool
  deriving DecidableEq, Repr

/-- The numbers that a tempo is computed from: the sum of the note values, and the number. -/
def Tempo.numbers (t : Text) : List Float :=
  let outside := Text.trim (splitQuotes none none [] t).2
  match Text.cutAt '=' outside with
  | some (left, right) => (readUnits? left).toList ++ (readFloat? (Text.trim right)).toList
  | none => (readFloat? outside).toList

/-- Whether the numbers of a field are moderate. -/
def isModerateField (name : Char) (text : Text) : Bool :=
  let value := Text.trim text
  match name with
  | 'L' => (readFraction? value).all isModerate
  | 'Q' => (Tempo.numbers value).all isModerate
  | 'P' => match PartSequence.read value with
    | .ok labels => decide (labels.length ≤ mostParts)
    | .error _ => true
  | _ => true

/-- Whether the numbers of a token have few digits. -/
def hasFewDigits (text : Text) : Bool := decide (text.countP Char.isDigit ≤ mostDigits)

namespace Spot

def start : Spot := ⟨0, 0, none, false, false⟩

def withNote (p : Spot) : Spot :=
  if p.grace then p else { p with chord := p.chord.map (· + 1), behind := p.chord.isNone }

/-- The spot behind a token, but for the count of tokens. -/
def after (p : Spot) (token : Token) : Spot :=
  match token.kind with
  | .note => p.withNote
  | .rest => { p with behind := true }
  | .chordStart => { p with chord := some 0, behind := false }
  | .chordEnd => { p with chord := none, behind := true }
  | .graceStart => { p with grace := true }
  | .graceEnd => { p with grace := false }
  | .tuplet => { p with doublings := p.doublings + Tuplet.writtenDoublings token.text }
  | .brokenRhythm | .field _ | .inlineField _ => { p with behind := false }
  | _ => p

/-- Whether a token may stand at a spot of moderate music. -/
def admits (p : Spot) (token : Token) : Bool :=
  decide (p.tokens < mostTokens) && match token.kind with
    | .note | .rest | .multiRest => hasFewDigits token.text
    | .chordEnd => hasFewDigits token.text && p.chord.all (· ≤ mostNotes)
    | .tuplet => decide (p.doublings + Tuplet.writtenDoublings token.text ≤ mostDoublings)
    | .brokenRhythm => p.behind
    | .field name | .inlineField name => p.chord.isNone && isModerateField name token.text
    | _ => true

def count (p : Spot) : Spot := { p with tokens := p.tokens + 1 }

def next? (p : Spot) (token : Token) : Option Spot :=
  if p.admits token then some (p.after token).count else none

/-- The spot behind the tokens of a line, if they are moderate. Chords and grace groups are closed
on their line. -/
def line? (p : Spot) (tokens : List Token) : Option Spot :=
  (tokens.foldlM next? { p with behind := false }).filter fun q => q.chord.isNone && !q.grace

def lines? (p : Spot) : List (Nat × Text) → Option Spot
  | [] => some p
  | (line, text) :: rest => do (← p.line? (Token.tokenize text line)).lines? rest

end Spot

/-! ## Bounded states -/

/-- What a voice remembers of its notes is bounded. -/
structure VoiceMemory.Bounded (m : VoiceMemory Float) : Prop where
  graces : ∀ g ∈ m.graces, Span 132 g.beats
  lastAdvance : Span 364 m.lastAdvance
  brokenNext : Span 1 (m.brokenNext.getD 1.0)

theorem VoiceMemory.Agrees.bounded {m m' : VoiceMemory Float} (h : m.Agrees m')
    (hm : m.Bounded) : m'.Bounded :=
  ⟨h.graces ▸ hm.graces,h.lastAdvance ▸ hm.lastAdvance,h.brokenNext ▸ hm.brokenNext⟩

structure OpenChord.Bounded (n : Nat) (c : OpenChord Float) : Prop where
  start : Clock n c.start
  firstAdvance : Span 333 (c.firstAdvance.getD 0.0)
  factor : Span 201 c.factor
  graces : ∀ g ∈ c.graces, Span 132 g.beats
  count : c.graces.length ≤ n

theorem OpenChord.Bounded.mono {m n : Nat} {c : OpenChord Float} (h : c.Bounded m) (hn : m ≤ n) :
    c.Bounded n :=
  ⟨h.start.more hn le_rfl,h.firstAdvance,h.factor,h.graces,h.count.trans hn⟩

theorem OpenChord.Bounded.addNote {n : Nat} {c : OpenChord Float} (h : c.Bounded n) (i : Nat)
    {advance : Float} (hadvance : Span 333 advance) :
    Bounded n { c with
      notes := c.notes ++ [i]
      firstAdvance := c.firstAdvance <|> some advance } := by
  refine ⟨h.start,?_,h.factor,h.graces,h.count⟩
  have hfirst := h.firstAdvance
  change Span 333 ((c.firstAdvance <|> some advance).getD 0.0)
  cases hcase : c.firstAdvance with
  | none => exact hadvance
  | some first =>
    rw [hcase] at hfirst
    exact hfirst

namespace MusicState

/-- A state whose positions and lengths are bounded after `n` tokens, with tuplets that double
notes no more than `b` times. -/
structure Bounded (n b : Nat) (s : MusicState Float) : Prop where
  voices : s.voices.Bounded n
  memories : ∀ id, (s.memory id).Bounded
  graces : ∀ id, (s.memory id).graces.length + (s.graceGroup.getD []).length ≤ n
  group : ∀ g ∈ s.graceGroup.getD [], Span 132 g.beats
  tuplets : ∀ t ∈ s.tuplets, t.Sound
  doublings : Tuplet.allDoublings s.tuplets ≤ b
  chord : ∀ c ∈ s.chord, c.Bounded n

/-- Something holds of notes of the active voice. -/
def Holds (s : MusicState Float) (places : List Nat) (P : Note Float → Prop) : Prop :=
  ∃ v, s.voices.active = some v.id ∧ s.voices.find? v.id = some v ∧ v.Holds places P

/-- The state at a spot: it is bounded, the notes of an open chord were just placed, and before
broken rhythm the notes of the last group have not been stretched yet. -/
structure Fits (p : Spot) (s : MusicState Float) : Prop where
  bounded : s.Bounded p.tokens p.doublings
  limit : p.doublings ≤ mostDoublings
  grace : s.graceGroup.isSome = p.grace
  chord : ∀ c ∈ s.chord, (∃ k, p.chord = some k ∧ c.notes.length ≤ k) ∧
    s.Holds c.notes fun note => Fresh p.tokens note.duration
  behind : p.behind = true → s.chord = none ∧ ∃ id, s.voices.active = some id ∧
    Span 363 (s.memory id).lastAdvance ∧ (s.memory id).lastGroup.length ≤ mostNotes ∧
    s.Holds (s.memory id).lastGroup fun note => Closed p.tokens note.duration

end MusicState
end AbcTune
