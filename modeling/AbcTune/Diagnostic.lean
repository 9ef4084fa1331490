import AbcTune.Part
import AbcTune.Token
import AbcTune.Voice.Attributes

/-! # Diagnostics

Reading a tune never stops at a problem. Each one is kept with its cause and with the line, and
perhaps the column, where it was found; the wording of a cause is given here and nowhere else.
-/
namespace AbcTune

/-- What can be wrong with a token of music. -/
inductive MusicProblem where
  | unexpected (text : Text)
  | badNote (text : Text)
  | badRest (text : Text)
  | badTuplet (text : Text)
  | badChordLength (text : Text)
  | restInside
  | nestedGrace
  | strayGraceEnd
  | nestedChord
  | chordInGrace
  | strayChordEnd
  | strayDecorationEnd (text : Text)
  | noPrecedingNote
  | beforeKey
  | stated (words : String)

def quoted (t : Text) : String := "'" ++ String.ofList t ++ "'"

def MusicProblem.message : MusicProblem → String
  | .unexpected t => "Unexpected " ++ quoted t
  | .badNote t => "Invalid note " ++ quoted t
  | .badRest t => "Invalid rest " ++ quoted t
  | .badTuplet t => "Invalid tuplet " ++ quoted t
  | .badChordLength t => "Invalid chord length " ++ quoted t
  | .restInside => "Rest inside a chord or grace group"
  | .nestedGrace => "Nested grace group"
  | .strayGraceEnd => "'\x7d' without matching '\x7b'"
  | .nestedChord => "Nested chord"
  | .chordInGrace => "Chord inside a grace group"
  | .strayChordEnd => "']' without matching '['"
  | .strayDecorationEnd t => quoted t ++ " closes no open decoration"
  | .noPrecedingNote => "Broken rhythm without a preceding note"
  | .beforeKey => "Music before the K: field"
  | .stated words => words

/-- What can be left open at the end of a line, or be missing at the end of a tune. -/
inductive StructureProblem where
  | openTuplet (notes remaining : Nat)
  | openGrace
  | openChord
  | undefinedPart (label : Char)
  | stated (words : String)

def StructureProblem.message : StructureProblem → String
  | .openTuplet notes remaining =>
    "Tuplet (" ++ toString notes ++ " not completed: " ++ toString remaining ++
      " note(s) missing"
  | .openGrace => "Unterminated grace group '\x7b'"
  | .openChord => "Unterminated chord '['"
  | .undefinedPart label => "Part " ++ String.singleton label ++ " is not defined"
  | .stated words => words

/-- What can be wrong with a field or a directive. -/
inductive FieldProblem where
  | badReference (value : Text)
  | badMeter (value : Text)
  | badUnitLength (value : Text)
  | badTempo (value : Text)
  | unknownKey (value : Text)
  | voiceWithoutId
  | badPartLabel (value : Text)
  | sequence (problem : PartProblem)
  | attribute (problem : AttributeProblem)
  | badNumber (number command : Text)
  | transposeRange (semitones : Int)
  | stated (words : String)

def FieldProblem.message : FieldProblem → String
  | .badReference v => "Invalid reference number " ++ quoted v
  | .badMeter v => "Invalid meter " ++ quoted v
  | .badUnitLength v => "Invalid unit length " ++ quoted v
  | .badTempo v => "Invalid tempo " ++ quoted v
  | .unknownKey v => "Unknown key " ++ quoted v
  | .voiceWithoutId => "Voice field without an id"
  | .badPartLabel v => "Invalid part label " ++ quoted v
  | .sequence p => p.message
  | .attribute p => p.message
  | .badNumber n command =>
    "Invalid number " ++ quoted n ++ " in %%MIDI " ++ String.ofList command
  | .transposeRange n => "Transpose " ++ toString n ++ " out of range"
  | .stated words => words

/-- A problem at its place in the text. -/
inductive Diagnostic where
  | parse (line column : Nat) (problem : MusicProblem)
  | structural (line : Nat) (problem : StructureProblem)
  | metadata (line : Nat) (problem : FieldProblem)
  /-- Repeats could not be written out within the limits. -/
  | repeatLimit (limit : Nat)
  | several (problems : List Diagnostic)

namespace Diagnostic

def line? : Diagnostic → Option Nat
  | .parse line _ _ | .structural line _ | .metadata line _ => some line
  | .repeatLimit _ | .several _ => none

/-- A problem in words; of several, the first one and how many more there are. -/
def message : Diagnostic → String
  | .parse line column p =>
    "Parse error at line " ++ toString line ++ ", column " ++ toString column ++ ": " ++ p.message
  | .structural line p => "Structural error at line " ++ toString line ++ ": " ++ p.message
  | .metadata line p => "Invalid field at line " ++ toString line ++ ": " ++ p.message
  | .repeatLimit limit => "Repeat expansion limit of " ++ toString limit ++ " exceeded"
  | .several [] => "No errors"
  | .several [d] => d.message
  | .several (d :: rest) => d.message ++ " (" ++ toString rest.length ++ " more)"

def atToken (t : Token) (p : MusicProblem) : Diagnostic := .parse t.line t.column p

end Diagnostic
end AbcTune
