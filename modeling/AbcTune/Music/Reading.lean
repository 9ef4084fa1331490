import AbcTune.Music.Placing

/-! # Reading music

Each token of music changes the state of reading. A token that cannot be understood, or that
stands where it must not, is rejected with its problem and reading goes on behind it. At the end
of a line everything that should have been closed on it is reported and dropped.
-/
namespace AbcTune.MusicState

variable {β : Type} [Beats β]

def remaining (length taken : β) : β := Beats.later (length - taken) 0.0

/-- A note inside a grace group waits for the principal. -/
def addGrace (s : MusicState β) (group : List (Grace β)) (written : Int) (nominal : β) :
    Except Fault (Handled β) :=
  let grace : Grace β := ⟨written, nominal * graceScale⟩
  { s with graceGroup := some (group ++ [grace]) }.accept

/-- A note inside a chord starts with the chord and leaves the cursor. -/
def addToChord (s : MusicState β) (chord : OpenChord β) (v : Voice β) (written : Int)
    (nominal : β) : Except Fault (Handled β) := do
  let advance := nominal * chord.factor
  let (v, m, i) ← place v (s.memory v.id)
    { written, start := chord.start, advance, decorations := s.decorations ++ chord.decorations }
    s.part
  let chord := { chord with
    notes := chord.notes ++ [i]
    firstAdvance := chord.firstAdvance <|> some advance }
  ({ s with chord := some chord, decorations := [] }.setMemory v.id m).setVoice v |>.accept

/-- A note by itself takes the grace notes that wait for it and moves the cursor. -/
def addSingle (s : MusicState β) (v : Voice β) (written : Int) (nominal : β) :
    Except Fault (Handled β) := do
  let m := s.memory v.id
  let advance := nominal * m.brokenNext.getD 1.0 * Tuplet.scaleAll s.tuplets
  let cursor := s.voices.cursor
  let (v, borrowed) := placeGraces v m.velocity m.graces cursor advance s.part
  let (v, m, i) ← place v { m with brokenNext := none, graces := [] }
    { written, start := cursor + borrowed, advance := advance - borrowed
      decorations := s.decorations }
    s.part
  let m := { m with tiedFrom := [], lastGroup := [i], lastAdvance := advance }
  (({ s with decorations := [] }.setMemory v.id m).setVoice v).step advance |>.accept

def note (s : MusicState β) (text : Text) (context : MusicContext β) : Except Fault (Handled β) :=
  match WrittenNote.read? text with
  | none => s.reject (.badNote text)
  | some w =>
    let id := s.voices.noteVoice
    let s := { s with voices := s.voices.ensureActive }
    let (m, written) := (s.memory id).resolve w context.key
    let s := s.setMemory id m
    let nominal := context.beats w.length
    match s.graceGroup with
    | some group => s.addGrace group written nominal
    | none =>
      match s.voices.find? id, s.chord with
      | none, _ => { s with decorations := [] }.accept
      | some v, some chord => s.addToChord chord v written nominal
      | some v, none => s.addSingle v written nominal

def rest (s : MusicState β) (text : Text) (context : MusicContext β) : Except Fault (Handled β) :=
  if s.graceGroup.isSome || s.chord.isSome then s.reject .restInside
  else
    match readLength? (text.drop 1) with
    | none => s.reject (.badRest text)
    | some length =>
      let id := s.voices.noteVoice
      let m := s.memory id
      let advance :=
        context.beats length * m.brokenNext.getD 1.0 * Tuplet.scaleAll s.tuplets
      let s := { s with voices := s.voices.ensureActive, decorations := [] }
      let m := { m with
        brokenNext := none, lastGroup := [], tiedFrom := [], lastAdvance := advance }
      ((s.setMemory id m).step advance).accept

/-- The number of bars that a rest lasts, 1 unless written. -/
def barCount? (digits : Text) : Option β :=
  if digits.isEmpty then some 1.0 else (Number.readDigits? digits).map Beats.ofNat

def multiRest (s : MusicState β) (text : Text) (context : MusicContext β) :
    Except Fault (Handled β) :=
  match barCount? (text.drop 1) with
  | none => s.reject (.badRest text)
  | some bars =>
    let id := s.voices.noteVoice
    let s := { s with voices := s.voices.ensureActive }
    let s := s.mapMemory id fun m => { m with lastGroup := [], tiedFrom := [] }
    { s with voices := s.voices.advance (bars * context.meter.barBeats) }.accept

/-- A bar line ends the accidentals of the active voice. -/
def barLine (s : MusicState β) : Except Fault (Handled β) :=
  match s.voices.active with
  | none => s.accept
  | some id => (s.mapMemory id fun m => { m with accidentals := [] }).accept

def openGrace (s : MusicState β) : Except Fault (Handled β) :=
  if s.graceGroup.isSome then s.reject .nestedGrace
  else { s with graceGroup := some [] }.accept

def closeGrace (s : MusicState β) : Except Fault (Handled β) :=
  match s.graceGroup with
  | none => s.reject .strayGraceEnd
  | some group =>
    let id := s.voices.noteVoice
    let s := { s with graceGroup := none, voices := s.voices.ensureActive }
    (s.mapMemory id fun m => { m with graces := m.graces ++ group }).accept

def openTuplet (s : MusicState β) (text : Text) (context : MusicContext β) :
    Except Fault (Handled β) :=
  match Tuplet.read? text context.meter with
  | none => s.reject (.badTuplet text)
  | some t => if t.isOpen then { s with tuplets := t :: s.tuplets }.accept else s.accept

/-- The next note of the same pitch goes on from the last note or chord. -/
def tie (s : MusicState β) : Except Fault (Handled β) :=
  let id := s.voices.noteVoice
  let s := { s with voices := s.voices.ensureActive }
  (s.mapMemory id fun m => { m with tiedFrom := m.lastGroup }).accept

def openChord (s : MusicState β) : Except Fault (Handled β) :=
  if s.chord.isSome then s.reject .nestedChord
  else if s.graceGroup.isSome then s.reject .chordInGrace
  else
    let id := s.voices.noteVoice
    let voices := s.voices.ensureActive
    let m := s.memory id
    let chord : OpenChord β :=
      { start := voices.cursor
        notes := []
        firstAdvance := none
        factor := m.brokenNext.getD 1.0 * Tuplet.scaleAll s.tuplets
        decorations := s.decorations
        graces := m.graces }
    ({ s with voices, chord := some chord, decorations := [] }.setMemory id
      { m with brokenNext := none, graces := [] }).accept

/-- Gives the notes of a chord their last length, and its grace notes their place. -/
def finishChord (v : Voice β) (velocity : Int) (chord : OpenChord β) (multiplier advance : β)
    (part : Option Char) : Except Fault (Voice β) := do
  let v ← v.modifyNotes (fun n => { n with duration := n.duration * multiplier }) chord.notes
  if chord.graces.isEmpty then .ok v
  else
    let (v, borrowed) := placeGraces v velocity chord.graces chord.start advance part
    v.modifyNotes
      (fun n => { n with
        start := n.start + borrowed, duration := remaining n.duration borrowed })
      chord.notes

/-- Closes the chord in the voice that notes now go to. -/
def closeChord (s : MusicState β) (text : Text) : Except Fault (Handled β) :=
  match s.chord with
  | none => s.reject .strayChordEnd
  | some chord =>
    let s := { s with chord := none }
    match readLength? (text.drop 1) with
    | none => s.reject (.badChordLength text)
    | some multiplier => do
      let id := s.voices.noteVoice
      let s := { s with voices := s.voices.ensureActive }
      let m := s.memory id
      let advance := chord.firstAdvance.getD 0.0 * multiplier
      let s ← match s.voices.find? id with
        | none => .ok s
        | some v => do
          let v ← finishChord v m.velocity chord multiplier advance s.part
          .ok (s.setVoice v)
      let m := { m with tiedFrom := [], lastGroup := chord.notes, lastAdvance := advance }
      ((s.setMemory id m).step advance).accept

/-- One half to the power `n`. -/
def halves : Nat → β
  | 0 => 1.0
  | n + 1 => 0.5 * halves n

/-- What a run of broken-rhythm marks multiplies the notes before and after it by. -/
def brokenFactors (text : Text) : β × β :=
  let short : β := halves text.length
  let long : β := 2.0 - short
  if text.head? = some '>' then (long, short) else (short, long)

/-- Lengthens one of two notes and shortens the other. The ends of the notes before the mark are
stretched from where their group starts, so that notes that grace notes have moved still end on
the new beat. -/
def brokenRhythm (s : MusicState β) (text : Text) : Except Fault (Handled β) :=
  match s.voices.active with
  | none => s.reject .noPrecedingNote
  | some id =>
    let m := s.memory id
    if m.lastAdvance ≤ 0.0 then s.reject .noPrecedingNote
    else do
      let (before, after) : β × β := brokenFactors text
      let origin := s.voices.cursor - m.lastAdvance
      let stretch (n : Note β) : Note β :=
        let stop := origin + (n.stop - origin) * before
        { n with duration := remaining stop n.start }
      let s ← match s.voices.find? id with
        | none => .ok s
        | some v => do
          let v ← v.modifyNotes stretch m.lastGroup
          .ok (s.setVoice v)
      let delta := m.lastAdvance * (before - 1.0)
      let m := { m with lastAdvance := m.lastAdvance * before, brokenNext := some after }
      let s := s.setMemory id m
      { s with voices := s.voices.advance delta }.accept

def decorate (s : MusicState β) (name : Text) : Except Fault (Handled β) :=
  { s with decorations := s.decorations ++ [Decoration.ofName (String.ofList name)] }.accept

/-- The name of a span; hairpins may be written by their signs. -/
def spanName (base : Text) : String :=
  match String.ofList base with
  | "<" => "crescendo"
  | ">" => "diminuendo"
  | name => name

def closeSpan? (name : String) (spans : List Decoration) : Option (List Decoration) :=
  if spans.any (·.variant = name) then some (spans.reverse.eraseP (·.variant = name)).reverse
  else none

/-- A decoration by name; one that ends in a parenthesis opens or closes a span. -/
def namedDecoration (s : MusicState β) (text : Text) : Except Fault (Handled β) :=
  let name := (text.drop 1).dropLast
  let id := s.voices.noteVoice
  match name.getLast? with
  | some '(' =>
    let s := { s with voices := s.voices.ensureActive }
    let span := { Decoration.ofName (spanName name.dropLast) with spanning := true }
    (s.mapMemory id fun m => { m with spans := m.spans ++ [span] }).accept
  | some ')' =>
    let s := { s with voices := s.voices.ensureActive }
    match closeSpan? (spanName name.dropLast) (s.memory id).spans with
    | some spans => (s.mapMemory id fun m => { m with spans }).accept
    | none => s.reject (.strayDecorationEnd text)
  | _ => s.decorate name

def handle (s : MusicState β) (token : Token) (context : MusicContext β) :
    Except Fault (Handled β) :=
  match token.kind with
  | .note => s.note token.text context
  | .rest => s.rest token.text context
  | .multiRest => s.multiRest token.text context
  | .bar | .repeatStart | .repeatEnd | .repeatBoth | .ending => s.barLine
  | .chordStart => s.openChord
  | .chordEnd => s.closeChord token.text
  | .graceStart => s.openGrace
  | .graceEnd => s.closeGrace
  | .tuplet => s.openTuplet token.text context
  | .tie => s.tie
  | .brokenRhythm => s.brokenRhythm token.text
  | .decoration => s.decorate token.text
  | .extendedDecoration => s.namedDecoration token.text
  | .unknown => s.reject (.unexpected token.text)
  | _ => s.accept

/-- What is still open at the end of a line: tuplets from the outermost, a grace group, a chord. -/
def openProblems (s : MusicState β) : List StructureProblem :=
  s.tuplets.reverse.map (fun t => .openTuplet t.notes t.remaining) ++
    (if s.graceGroup.isSome then [.openGrace] else []) ++
    (if s.chord.isSome then [.openChord] else [])

/-- Drops all that belongs to the line under way. -/
def endLine (s : MusicState β) : MusicState β :=
  { s with tuplets := [], graceGroup := none, chord := none, decorations := [] }

end AbcTune.MusicState
