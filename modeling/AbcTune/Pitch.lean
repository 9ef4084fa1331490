/-! # Letters and accidentals

Written pitches are named by a letter, an octave and perhaps an accidental. A letter stands for
a number of semitones above C, and an accidental moves it.
-/
namespace AbcTune

inductive Letter where
  | C | D | E | F | G | A | B
  deriving DecidableEq, Repr

namespace Letter

/-- Capital and small letters name the same tones. -/
def ofChar? (c : Char) : Option Letter :=
  match c.toUpper with
  | 'C' => some .C
  | 'D' => some .D
  | 'E' => some .E
  | 'F' => some .F
  | 'G' => some .G
  | 'A' => some .A
  | 'B' => some .B
  | _ => none

/-- Semitones above C. -/
def semitone : Letter → Int
  | .C => 0
  | .D => 2
  | .E => 4
  | .F => 5
  | .G => 7
  | .A => 9
  | .B => 11

def toChar : Letter → Char
  | .C => 'C'
  | .D => 'D'
  | .E => 'E'
  | .F => 'F'
  | .G => 'G'
  | .A => 'A'
  | .B => 'B'

def all : List Letter := [.C, .D, .E, .F, .G, .A, .B]

@[simp] theorem ofChar?_toChar (l : Letter) : ofChar? l.toChar = some l := by cases l <;> rfl

end Letter

inductive Accidental where
  | doubleSharp | sharp | natural | flat | doubleFlat
  deriving DecidableEq, Repr

namespace Accidental

def semitones : Accidental → Int
  | .doubleSharp => 2
  | .sharp => 1
  | .natural => 0
  | .flat => -1
  | .doubleFlat => -2

def marks : Accidental → List Char
  | .doubleSharp => ['^', '^']
  | .sharp => ['^']
  | .natural => ['=']
  | .flat => ['_']
  | .doubleFlat => ['_', '_']

/-- The accidental at the front of a text, if there is one, and what follows it. -/
def take : List Char → Option Accidental × List Char
  | '^' :: '^' :: rest => (some .doubleSharp, rest)
  | '_' :: '_' :: rest => (some .doubleFlat, rest)
  | '^' :: rest => (some .sharp, rest)
  | '_' :: rest => (some .flat, rest)
  | '=' :: rest => (some .natural, rest)
  | t => (none, t)

end Accidental
end AbcTune
