import AbcTune.Context
import AbcTune.Diagnostic
import AbcTune.Voice.Table

/-! # Fields and directives

Fields are lines or bracketed values named by one letter. Those before the end of the first key
field make up the header and describe the tune; later ones change the running context. In the
header a voice field defines a voice. In the body one with settings still only defines it as long
as no music has been seen, and any other switches to its voice.
-/
namespace AbcTune

inductive Stage where
  | header | body
  deriving DecidableEq, Repr

/-- What fields say, of the tune as a whole and of the music to come. -/
structure FieldSettings where
  stage : Stage
  context : MusicContext Float
  musicStarted : Bool
  /-- The line of the part sequence, for problems found at the end. -/
  sequenceLine : Option Nat
  heading : Heading Float

/-- All that fields and directives read and change. -/
structure FieldState extends FieldSettings where
  voices : VoiceTable Float

/-- What a field asks of the reading of the music. -/
inductive FieldEffect where
  | none
  | switched (id : String)
  | partStarted (label : Char)
  deriving DecidableEq, Repr

/-- Reading starts in the header, or in the body where there is none. -/
def FieldSettings.initial (stage : Stage) (unitLength : Float) : FieldSettings where
  stage
  context := .initial
  musicStarted := false
  sequenceLine := none
  heading := .initial unitLength

def FieldSettings.beginMusic (s : FieldSettings) : FieldSettings := { s with musicStarted := true }

namespace FieldState

/-- What becomes of a field: the state after it, and its effect or what is wrong with it. -/
abbrev Applied := FieldState × Except FieldProblem FieldEffect

def accept (s : FieldState) : Applied := (s, .ok .none)

def reject (s : FieldState) (p : FieldProblem) : Applied := (s, .error p)

def mapHeading (s : FieldState) (f : Heading Float → Heading Float) : FieldState :=
  { s with heading := f s.heading }

/-- Changes the heading in the header only. -/
def mapHeader (s : FieldState) (f : Heading Float → Heading Float) : FieldState :=
  match s.stage with
  | .header => s.mapHeading f
  | .body => s

def applyReference (s : FieldState) (value : Text) : Applied :=
  match Number.readNat? Number.mostWord value with
  | some n => (s.mapHeading ({ · with reference := some n })).accept
  | Option.none => s.reject (.badReference value)

def addOther (s : FieldState) (name : Char) (value : Text) : FieldState :=
  s.mapHeading fun h => { h with others := h.others ++ [(name, String.ofList value)] }

/-- The first composer counts as such, and further ones are kept with the other fields. -/
def applyComposer (s : FieldState) (value : Text) : Applied :=
  if s.heading.composer.isNone then
    (s.mapHeading ({ · with composer := some (String.ofList value) })).accept
  else (s.addOther 'C' value).accept

def applyMeter (s : FieldState) (value : Text) : Applied :=
  match Meter.read? value with
  | some meter =>
    ({ s with context := { s.context with meter } }.mapHeader ({ · with meter })).accept
  | Option.none => s.reject (.badMeter value)

def applyUnitLength (s : FieldState) (value : Text) : Applied :=
  match readFraction? value with
  | some unitLength =>
    ({ s with context := { s.context with unitLength, unitStated := true } }.mapHeader
      ({ · with unitLength })).accept
  | Option.none => s.reject (.badUnitLength value)

/-- Once music has been seen the tempo stays. -/
def applyTempo (s : FieldState) (value : Text) : Applied :=
  match Tempo.read? value s.context.meter.beatUnit with
  | some tempo =>
    if s.musicStarted then s.accept else (s.mapHeading ({ · with tempo })).accept
  | Option.none => s.reject (.badTempo value)

def isAttribute (word : Text) : Bool := word.contains '='

/-- Words of a field value that are no attributes. -/
def plainWords (value : Text) : List Text := (fieldWords value).filter (!isAttribute ·)

/-- The words of a key, and the clefs that follow it. -/
def splitKeyWords : List Text → List Text × List Text
  | [] => ([], [])
  | first :: rest =>
    (first :: rest.filter (Clef.read? · |>.isNone), rest.filter (Clef.read? · |>.isSome))

/-- Ends the header: the meter and the unit length in force become those of the tune. A unit
length that was not stated follows from the meter. -/
def endHeader (s : FieldState) : FieldState :=
  match s.stage with
  | .body => s
  | .header =>
    let context :=
      if s.context.unitStated then s.context
      else { s.context with unitLength := s.context.meter.defaultUnitLength }
    { s with
      stage := .body
      context
      heading := { s.heading with
        key := context.key
        meter := context.meter
        unitLength := context.unitLength } }

/-- Gives the settings behind a key to the voice that they are for. -/
def applySettings (s : FieldState) (pairs : List (Text × Text)) (flags : List Text) :
    Except FieldProblem FieldState :=
  if pairs.isEmpty && flags.isEmpty then .ok s
  else
    match Attributes.read pairs flags with
    | .error p => .error (.attribute p)
    | .ok a =>
      .ok { s with voices := s.voices.ensureSettings.define s.voices.settingsVoice a }

/-- The key comes first and counts even if the settings behind it are rejected; only a field
without fault ends the header. -/
def applyKey (s : FieldState) (token : Token) : Applied :=
  let (keyWords, flags) := splitKeyWords (plainWords token.text)
  let keyText := Text.join [' '] keyWords
  match Key.read? keyText with
  | Option.none => s.reject (.unknownKey keyText)
  | some key =>
    let s := { s with context := { s.context with key } }
    match s.applySettings token.properties flags with
    | .error p => s.reject p
    | .ok s => s.endHeader.accept

def enterVoice (s : FieldState) (id : String) (a : Attributes) (defines : Bool) : Applied :=
  if s.stage = .header ∨ (defines ∧ !s.musicStarted) then
    { s with voices := s.voices.define id a }.accept
  else
    let voices := if defines then s.voices.define id a else s.voices
    ({ s with voices := voices.switchTo id }, .ok (.switched id))

def applyVoice (s : FieldState) (token : Token) : Applied :=
  match fieldWords token.text with
  | [] => s.reject .voiceWithoutId
  | id :: rest =>
    if isAttribute id then s.reject .voiceWithoutId
    else
      let flags := rest.filter (!isAttribute ·)
      match Attributes.read token.properties flags with
      | .error p => s.reject (.attribute p)
      | .ok a =>
        s.enterVoice (String.ofList id) a (!token.properties.isEmpty || !flags.isEmpty)

/-- A part sequence in the header, and the start of a part in the body. -/
def applyPart (s : FieldState) (line : Nat) (value : Text) : Applied :=
  match s.stage with
  | .header =>
    match PartSequence.read value with
    | .ok labels =>
      ({ s with sequenceLine := some line }.mapHeading
        ({ · with partSequence := some labels })).accept
    | .error p => s.reject (.sequence p)
  | .body =>
    match value with
    | label :: _ =>
      if label.isUpper then (s, .ok (.partStarted label)) else s.reject (.badPartLabel value)
    | [] => s.reject (.badPartLabel value)

def applyNamed (s : FieldState) (name : Char) (token : Token) : Applied :=
  let value := Text.trim token.text
  match name with
  | 'X' => s.applyReference value
  | 'T' =>
    (s.mapHeading fun h => { h with titles := h.titles ++ [String.ofList value] }).accept
  | 'C' => s.applyComposer value
  | 'M' => s.applyMeter value
  | 'L' => s.applyUnitLength value
  | 'Q' => s.applyTempo value
  | 'K' => s.applyKey token
  | 'V' => s.applyVoice token
  | 'P' => s.applyPart token.line value
  | 'w' | 'W' =>
    (s.mapHeading fun h => { h with lyrics := h.lyrics ++ [String.ofList value] }).accept
  | other => (s.addOther other value).accept

/-- Applies a field; other tokens have no effect. -/
def applyField (s : FieldState) (token : Token) : FieldState × Except Diagnostic FieldEffect :=
  match token.kind with
  | .field name | .inlineField name =>
    let (s, result) := s.applyNamed name token
    (s, result.mapError (.metadata token.line))
  | _ => (s, .ok .none)

/-- The numbers of a directive are signed and take 32 bits. -/
def readDirectiveNumber (command number : Text) : Except FieldProblem Int :=
  match Number.readInt? (-2147483648) 2147483647 number with
  | some n => .ok n
  | Option.none => .error (.badNumber number command)

def readDirectiveProgram (command number : Text) : Except FieldProblem Nat := do
  let n ← readDirectiveNumber command number
  if 0 ≤ n ∧ n ≤ 127 then .ok n.toNat else .error (.attribute (.programRange n))

def readDirectiveShift (command number : Text) : Except FieldProblem Int := do
  let n ← readDirectiveNumber command number
  if -128 ≤ n ∧ n ≤ 127 then .ok n else .error (.transposeRange n)

def readDirectiveChannel (number : Text) : Except FieldProblem Nat :=
  (Attributes.readChannel number).mapError .attribute

/-- The settings that a directive gives, or nothing if it does not affect playing. -/
def readDirective (words : List Text) : Except FieldProblem (Option Attributes) :=
  match words with
  | first :: command :: arguments =>
    if String.ofList first != "MIDI" then .ok Option.none
    else match String.ofList command, arguments with
      | "program", [program] => do
        let program ← readDirectiveProgram command program
        .ok (some (Attributes.none.set (.program program)))
      | "program", [channel, program] => do
        let channel ← readDirectiveChannel channel
        let program ← readDirectiveProgram command program
        .ok (some ((Attributes.none.set (.channel channel)).set (.program program)))
      | "channel", [channel] => do
        let channel ← readDirectiveChannel channel
        .ok (some (Attributes.none.set (.channel channel)))
      | "transpose", [semitones] => do
        let semitones ← readDirectiveShift command semitones
        .ok (some (Attributes.none.set (.transpose semitones)))
      | _, _ => .ok Option.none
  | _ => .ok Option.none

/-- Applies a directive, given without its percent signs. -/
def applyDirective (s : FieldState) (text : Text) (line : Nat) :
    FieldState × Option Diagnostic :=
  match readDirective (Text.words text) with
  | .error p => (s, some (.metadata line p))
  | .ok Option.none => (s, Option.none)
  | .ok (some a) =>
    ({ s with voices := s.voices.ensureSettings.define s.voices.settingsVoice a }, Option.none)

end FieldState
end AbcTune
