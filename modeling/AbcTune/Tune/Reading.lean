import AbcTune.Field
import AbcTune.Music.Reading
import AbcTune.Repeat
import AbcTune.Token.Lexer
import AbcTune.Tune.Assembly

/-! # Reading a tune

Repeats are written out first; then each line is read as a field, a directive or music. Problems
are collected and never stop the reading. Lines are counted in the text with its repeats written
out.
-/
namespace AbcTune

structure TuneReading where
  settings : FieldSettings
  music : MusicState Float
  /-- Parts in the order of writing. -/
  sections : List (Section Float)
  diagnostics : List Diagnostic

namespace TuneReading

/-- Reading starts with the header if there is one. -/
def initial (hasHeader : Bool) : TuneReading where
  settings := .initial (if hasHeader then .header else .body)
    (MusicContext.initial : MusicContext Float).unitLength
  music := .initial
  sections := []
  diagnostics := []

def report (r : TuneReading) (ds : List Diagnostic) : TuneReading :=
  { r with diagnostics := r.diagnostics ++ ds }

/-- What fields and directives see of the reading. -/
def fieldState (r : TuneReading) : FieldState :=
  { toFieldSettings := r.settings, voices := r.music.voices }

def setFieldState (r : TuneReading) (s : FieldState) : TuneReading :=
  { r with settings := s.toFieldSettings, music := { r.music with voices := s.voices } }

/-- Starts a part, for which all voices are brought to the same beat. -/
def startPart (r : TuneReading) (label : Char) : TuneReading :=
  let voices := r.music.voices.syncAll
  { r with
    music := { r.music with voices }.startPart label
    sections := r.sections ++ [⟨label, voices.cursor⟩] }

def readField (r : TuneReading) (token : Token) : TuneReading :=
  let (s, result) := r.fieldState.applyField token
  let r := r.setFieldState s
  match result with
  | .ok (.partStarted label) => r.startPart label
  | .ok _ => r
  | .error d => r.report [d]

def readDirective (r : TuneReading) (text : Text) (line : Nat) : TuneReading :=
  let (s, problem) := r.fieldState.applyDirective text line
  (r.setFieldState s).report problem.toList

def readToken (r : TuneReading) (token : Token) : Except Fault TuneReading :=
  match token.kind with
  | .inlineField _ => .ok (r.readField token)
  | _ => do
    let (music, problem) ← r.music.handle token r.settings.context
    .ok ({ r with music }.report (problem.toList.map (Diagnostic.atToken token)))

def readTokens (r : TuneReading) : List Token → Except Fault TuneReading
  | [] => .ok r
  | t :: rest => do (← r.readToken t).readTokens rest

/-- Whether a line goes on in the next one: its last token but for blanks and comments says so. -/
def isContinued (tokens : List Token) : Bool :=
  match tokens.reverse.find? fun t => t.kind != .space && t.kind != .comment with
  | some t => t.kind == .continuation
  | none => false

/-- Reports all that a line leaves open. -/
def endLine (r : TuneReading) (line : Nat) : TuneReading :=
  { r with music := r.music.endLine }.report
    (r.music.openProblems.map (Diagnostic.structural line))

def beginMusic (r : TuneReading) : TuneReading := { r with settings := r.settings.beginMusic }

def readMusic (r : TuneReading) (tokens : List Token) (line : Nat) : Except Fault TuneReading := do
  let r ← r.beginMusic.readTokens tokens
  .ok (if isContinued tokens then r else r.endLine line)

def readLineTokens (r : TuneReading) (tokens : List Token) (line : Nat) :
    Except Fault TuneReading :=
  match tokens with
  | [] => .ok r
  | first :: _ =>
    match first.kind with
    | .field _ => .ok (r.readField first)
    | .directive => .ok (r.readDirective first.text line)
    | .comment => .ok r
    | _ =>
      if tokens.all (·.kind == .space) then .ok r
      else if r.settings.stage = .header then
        .ok (r.report [.parse line first.column .beforeKey])
      else r.readMusic tokens line

/-- Reads a line; lines count from 1. -/
def readLine (r : TuneReading) (text : Text) (line : Nat) : Except Fault TuneReading :=
  r.readLineTokens (Token.tokenize text line) line

def readLines (r : TuneReading) : List (Nat × Text) → Except Fault TuneReading
  | [] => .ok r
  | (line, text) :: rest => do (← r.readLine text line).readLines rest

/-- The tune before its parts are laid out. -/
def draft (r : TuneReading) : Tune Float :=
  { Tune.empty r.settings.heading with
    voices := r.music.voices.close
    voiceOrder := r.music.voices.order }

/-- Completes the tune, with all problems found. -/
def finish (r : TuneReading) : Tune Float :=
  let (tune, problem) :=
    r.draft.assemble implicitVoice r.sections (r.settings.sequenceLine.getD 0)
  { tune with diagnostics := r.diagnostics ++ problem.toList }

end TuneReading

def hasKeyLine (t : Text) : Bool := (Text.lines t).any Repeat.isKeyLine

/-- The text that is read as lines, and what was wrong with its repeats. A text whose repeats
cannot be written out is read as it stands. -/
def expandSource (source : Text) : Except Fault (Text × List Diagnostic) :=
  match Repeat.expand source with
  | .ok t => .ok (t, [])
  | .error .limit => .ok (source, [.repeatLimit Repeat.mostExpansions])
  | .error .startAfterEnd => .error .repeatStart

/-- Lines with their numbers, counted from `first`. -/
def numberLines (first : Nat) : List Text → List (Nat × Text)
  | [] => []
  | t :: rest => (first, t) :: numberLines (first + 1) rest

namespace Tune

/-- Reads a tune, with the problems that were found. -/
def read (source : Text) : Except Fault (Tune Float) := do
  let (text, problems) ← expandSource source
  let reading := (TuneReading.initial (hasKeyLine text)).report problems
  let reading ← reading.readLines (numberLines 1 (Text.lines text))
  .ok reading.finish

/-- A tune without problems, or all its problems together. -/
def compiled (t : Tune Float) : Except Diagnostic (Tune Float) :=
  if t.isComplete then .ok t else .error (.several t.diagnostics)

end Tune
end AbcTune
