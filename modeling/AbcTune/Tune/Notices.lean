import AbcTune.Notice
import AbcTune.Tune.Reading

/-! # Notices of reading

What is logged while a tune is read follows from the state before each step and the state after
it, so the reading itself keeps no log.
-/
namespace AbcTune

/-- A voice was created, which may have used up the channels. -/
def VoiceTable.creationNotices {β : Type} (before after : VoiceTable β) : List Notice :=
  (if after.nextChannel < before.nextChannel then
    [.warn "More than 15 melodic voices; reusing channels from 1"] else []) ++
  (after.voices.drop before.voices.length).map fun v =>
    .debug ("Voice " ++ v.id ++ " created on channel " ++ toString (v.channel + 1))

/-- Settings that have no meaning for playing. -/
def Attributes.notices (pairs : List (Text × Text)) (flags : List Text) : List Notice :=
  (ignoredPairs pairs).map (fun (key, value) =>
    .debug ("Ignoring voice attribute " ++ String.ofList key ++ "=" ++ String.ofList value)) ++
  match readPairs none pairs with
  | .error _ => []
  | .ok _ => (ignoredFlags flags).map fun f => .debug ("Ignoring voice flag " ++ String.ofList f)

namespace FieldState

def settingsNotices (s : FieldState) : List Notice :=
  s.voices.creationNotices s.voices.ensureSettings

def keyNotices (s : FieldState) (token : Token) : List Notice :=
  let (keyWords, flags) := splitKeyWords (plainWords token.text)
  match Key.read? (Text.join [' '] keyWords) with
  | none => []
  | some _ =>
    let ends : List Notice :=
      if s.stage = .header then [.debug ("Header ends at line " ++ toString token.line)] else []
    if token.properties.isEmpty && flags.isEmpty then ends
    else
      Attributes.notices token.properties flags ++
        match Attributes.read token.properties flags with
        | .error _ => []
        | .ok _ => s.settingsNotices ++ ends

def voiceNotices (s : FieldState) (token : Token) : List Notice :=
  match fieldWords token.text with
  | [] => []
  | id :: rest =>
    if isAttribute id then []
    else
      Attributes.notices token.properties (rest.filter (!isAttribute ·)) ++
        s.voices.creationNotices (s.applyVoice token).1.voices

def tempoNotices (s : FieldState) (token : Token) : List Notice :=
  match s.musicStarted, Tempo.read? (Text.trim token.text) s.context.meter.beatUnit with
  | true, some tempo =>
    [.warn ("Line " ++ toString token.line ++ ": tempo change to " ++ Number.plain tempo.bpm ++
      " after music started is ignored")]
  | _, _ => []

def fieldNotices (s : FieldState) (token : Token) : List Notice :=
  match token.kind with
  | .field name | .inlineField name =>
    match name with
    | 'K' => s.keyNotices token
    | 'V' => s.voiceNotices token
    | 'Q' => s.tempoNotices token
    | _ => []
  | _ => []

def directiveNotices (s : FieldState) (text : Text) (line : Nat) : List Notice :=
  match readDirective (Text.words text) with
  | .error _ => []
  | .ok none =>
    [.debug ("Line " ++ toString line ++ ": skipping directive %%" ++ String.ofList text)]
  | .ok (some _) => s.settingsNotices

end FieldState

namespace TuneReading

/-- What is logged of a field, with the part that it starts. -/
def fieldNotices (r : TuneReading) (token : Token) : List Notice :=
  r.fieldState.fieldNotices token ++
    match (r.fieldState.applyField token).2 with
    | .ok (.partStarted label) =>
      [.debug ("Part " ++ String.singleton label ++ " starts at beat " ++
        Number.plain r.music.voices.syncAll.cursor ++ " (line " ++ toString token.line ++ ")")]
    | _ => []

def tokenNotices (r : TuneReading) (token : Token) : List Notice :=
  match token.kind with
  | .inlineField _ => r.fieldNotices token
  | _ =>
    match r.music.handle token r.settings.context with
    | .ok (music, _) => r.music.voices.creationNotices music.voices
    | .error _ => []

def tokensNotices (r : TuneReading) : List Token → List Notice
  | [] => []
  | t :: rest =>
    r.tokenNotices t ++
      match r.readToken t with
      | .ok r => r.tokensNotices rest
      | .error _ => []

def lineNotices (r : TuneReading) (text : Text) (line : Nat) : List Notice :=
  let tokens := Token.tokenize text line
  match tokens with
  | [] => []
  | first :: _ =>
    match first.kind with
    | .field _ => r.fieldNotices first
    | .directive => r.fieldState.directiveNotices first.text line
    | .comment => []
    | _ =>
      if tokens.all (·.kind == .space) || r.settings.stage = .header then []
      else r.beginMusic.tokensNotices tokens

/-- Labels that parts were written with before. -/
def repeatedLabels (seen : List Char) : List (Section Float) → List Char
  | [] => []
  | s :: rest =>
    if seen.contains s.label then s.label :: repeatedLabels seen rest
    else repeatedLabels (s.label :: seen) rest

def finishNotices (r : TuneReading) : List Notice :=
  let tune := r.finish
  let labels := match r.settings.heading.partSequence with
    | none | some [] => []
    | some _ => repeatedLabels [] r.sections
  labels.map (fun label => .warn ("Part " ++ String.singleton label ++
    " is written more than once; using the first")) ++
  [.debug ("Parsed " ++ toString tune.voices.length ++ " voice(s), " ++
    toString tune.events.length ++ " event(s), " ++ toString tune.diagnostics.length ++
    " diagnostic(s)")]

def linesNotices (r : TuneReading) : List (Nat × Text) → Except Fault (List Notice)
  | [] => .ok r.finishNotices
  | (line, text) :: rest => do
    let next ← r.readLine text line
    let more ← next.linesNotices rest
    .ok (r.lineNotices text line ++ more)

end TuneReading

def Tune.readNotices (source : Text) : Except Fault (List Notice) := do
  let (text, problems) ← expandSource source
  let reading := (TuneReading.initial (hasKeyLine text)).report problems
  reading.linesNotices (numberLines 1 (Text.lines text))

end AbcTune
