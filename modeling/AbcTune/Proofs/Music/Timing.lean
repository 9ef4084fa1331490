import AbcTune.Proofs.Music.Passage

/-! # What the time of music depends on

How far the cursor has come and what is wrong with a token depend on little of the state: on the
clock and the last length, on broken rhythm, on the tuplets and spans that are open, and on whether
a grace group or a chord is. Which notes were written, and which grace notes wait, has no part in
it. While one voice is active, each token can therefore be followed on these few things alone.
-/
namespace AbcTune

variable {β : Type}

/-- What a chord that is open has to do with time. -/
structure ChordTiming (β : Type) where
  factor : β
  firstAdvance : Option β

/-- What the time of the active voice depends on. -/
structure Timing (β : Type) where
  cursor : β
  lastAdvance : β
  brokenNext : Option β
  tuplets : List Tuplet
  spans : List Decoration
  inGrace : Bool
  chord : Option (ChordTiming β)

namespace Timing

/-- The time behind a token, with what is wrong with it if anything is. -/
abbrev Outcome (β : Type) := Timing β × Option MusicProblem

def accept (o : Timing β) : Outcome β := (o,none)

def reject (o : Timing β) (p : MusicProblem) : Outcome β := (o,some p)

variable [Beats β]

/-- The time behind a note, chord or rest. -/
def step (o : Timing β) (advance : β) : Timing β :=
  { o with
    cursor := o.cursor + advance, lastAdvance := advance, tuplets := Tuplet.countNote o.tuplets }

def single (o : Timing β) (nominal : β) : Timing β :=
  { o with brokenNext := none }.step
    (nominal * o.brokenNext.getD 1.0 * Tuplet.scaleAll o.tuplets)

def note (o : Timing β) (text : Text) (context : MusicContext β) : Outcome β :=
  match WrittenNote.read? text with
  | none => o.reject (.badNote text)
  | some w =>
    let nominal := context.beats w.length
    if o.inGrace then o.accept
    else
      match o.chord with
      | some c =>
        accept { o with chord := some { c with
          firstAdvance := c.firstAdvance <|> some (nominal * c.factor) } }
      | none => (o.single nominal).accept

def rest (o : Timing β) (text : Text) (context : MusicContext β) : Outcome β :=
  if o.inGrace || o.chord.isSome then o.reject .restInside
  else
    match readLength? (text.drop 1) with
    | none => o.reject (.badRest text)
    | some length => (o.single (context.beats length)).accept

def multiRest (o : Timing β) (text : Text) (context : MusicContext β) : Outcome β :=
  match MusicState.barCount? (text.drop 1) with
  | none => o.reject (.badRest text)
  | some bars => accept { o with cursor := o.cursor + bars * context.meter.barBeats }

def openGrace (o : Timing β) : Outcome β :=
  if o.inGrace then o.reject .nestedGrace else accept { o with inGrace := true }

def closeGrace (o : Timing β) : Outcome β :=
  if o.inGrace then accept { o with inGrace := false } else o.reject .strayGraceEnd

def openTuplet (o : Timing β) (text : Text) (context : MusicContext β) : Outcome β :=
  match Tuplet.read? text context.meter with
  | none => o.reject (.badTuplet text)
  | some t => if t.isOpen then accept { o with tuplets := t :: o.tuplets } else o.accept

def openChord (o : Timing β) : Outcome β :=
  if o.chord.isSome then o.reject .nestedChord
  else if o.inGrace then o.reject .chordInGrace
  else
    accept { o with
      brokenNext := none
      chord := some ⟨o.brokenNext.getD 1.0 * Tuplet.scaleAll o.tuplets,none⟩ }

def closeChord (o : Timing β) (text : Text) : Outcome β :=
  match o.chord with
  | none => o.reject .strayChordEnd
  | some c =>
    let o := { o with chord := none }
    match readLength? (text.drop 1) with
    | none => o.reject (.badChordLength text)
    | some multiplier => (o.step (c.firstAdvance.getD 0.0 * multiplier)).accept

def brokenRhythm (o : Timing β) (text : Text) : Outcome β :=
  if o.lastAdvance ≤ 0.0 then o.reject .noPrecedingNote
  else
    let (before,after) : β × β := MusicState.brokenFactors text
    accept { o with
      cursor := o.cursor + o.lastAdvance * (before - 1.0)
      lastAdvance := o.lastAdvance * before
      brokenNext := some after }

def namedDecoration (o : Timing β) (text : Text) : Outcome β :=
  let name := (text.drop 1).dropLast
  match name.getLast? with
  | some '(' =>
    let span :=
      { Decoration.ofName (MusicState.spanName name.dropLast) with spanning := true }
    accept { o with spans := o.spans ++ [span] }
  | some ')' =>
    match MusicState.closeSpan? (MusicState.spanName name.dropLast) o.spans with
    | some spans => accept { o with spans }
    | none => o.reject (.strayDecorationEnd text)
  | _ => o.accept

/-- The time behind a token, told without the notes. -/
def handle (o : Timing β) (token : Token) (context : MusicContext β) : Outcome β :=
  match token.kind with
  | .note => o.note token.text context
  | .rest => o.rest token.text context
  | .multiRest => o.multiRest token.text context
  | .chordStart => o.openChord
  | .chordEnd => o.closeChord token.text
  | .graceStart => o.openGrace
  | .graceEnd => o.closeGrace
  | .tuplet => o.openTuplet token.text context
  | .brokenRhythm => o.brokenRhythm token.text
  | .extendedDecoration => o.namedDecoration token.text
  | .unknown => o.reject (.unexpected token.text)
  | _ => o.accept

end Timing

variable [Beats β]

/-- Placing a note leaves all that is remembered but the velocity. -/
theorem place_memory {v w : Voice β} {m m' : VoiceMemory β} {p : Placement β} {part : Option Char}
    {i : Nat} (h : place v m p part = .ok (w,m',i)) : w.id = v.id ∧ m' =
      { m with
        velocity := (Shading.ofDecorations m.velocity (p.decorations ++ m.spans)).lasting } := by
  unfold place at h
  obtain ⟨tied,-,h⟩ := exists_of_bind_ok h
  split at h
  · obtain ⟨u,hu,h⟩ := exists_of_bind_ok h
    cases h
    obtain ⟨note,-,rfl⟩ := Voice.modifyNote_ok hu
    exact ⟨rfl,rfl⟩
  · cases h
    exact ⟨rfl,rfl⟩

namespace MusicState

variable {s t : MusicState β} {id : String} {o : Timing β}

/-- What the time of a voice depends on in a state of reading. -/
def timing (s : MusicState β) (id : String) : Timing β where
  cursor := s.voices.cursor
  lastAdvance := (s.memory id).lastAdvance
  brokenNext := (s.memory id).brokenNext
  tuplets := s.tuplets
  spans := (s.memory id).spans
  inGrace := s.graceGroup.isSome
  chord := s.chord.map fun c => ⟨c.factor,c.firstAdvance⟩

theorem timing_setMemory (s : MusicState β) (id : String) (m : VoiceMemory β) :
    (s.setMemory id m).timing id =
      { s.timing id with
        lastAdvance := m.lastAdvance, brokenNext := m.brokenNext, spans := m.spans } := by
  simp only [timing, memory_setMemory]
  rfl

theorem timing_step (s : MusicState β) (id : String) (beats : β) :
    (s.step beats).timing id =
      { s.timing id with
        cursor := s.voices.cursor + beats, tuplets := Tuplet.countNote s.tuplets } := rfl

theorem timing_advance (s : MusicState β) (id : String) (beats : β) :
    MusicState.timing { s with voices := s.voices.advance beats } id =
      { s.timing id with cursor := s.voices.cursor + beats } := rfl

theorem timing_setVoice (s : MusicState β) (id : String) (v : Voice β) :
    (s.setVoice v).timing id = s.timing id := rfl

theorem timing_mapMemory (s : MusicState β) (id : String) {f : VoiceMemory β → VoiceMemory β}
    (hlast : (f (s.memory id)).lastAdvance = (s.memory id).lastAdvance)
    (hbroken : (f (s.memory id)).brokenNext = (s.memory id).brokenNext)
    (hspans : (f (s.memory id)).spans = (s.memory id).spans) :
    (s.mapMemory id f).timing id = s.timing id := by
  rw [mapMemory, timing_setMemory, hlast, hbroken, hspans]
  rfl

/-! ## Tokens followed on the time alone -/

/-- A token that is handled keeps a voice active and has this outcome for its time. -/
def TakesTime (id : String) (o : Timing.Outcome β) (r : Except Fault (Handled β)) : Prop :=
  ∀ t problem, r = .ok (t,problem) → t.voices.active = some id ∧ (t.timing id,problem) = o

theorem takesTime_accept (hactive : t.voices.active = some id) (h : t.timing id = o) :
    TakesTime id o.accept t.accept := by
  rintro _ _ ⟨⟩
  exact ⟨hactive,by rw [h, Timing.accept]⟩

theorem takesTime_reject (hactive : t.voices.active = some id) (h : t.timing id = o)
    (problem : MusicProblem) : TakesTime id (o.reject problem) (t.reject problem) := by
  rintro _ _ ⟨⟩
  exact ⟨hactive,by rw [h, Timing.reject]⟩

theorem takesTime_bind {α : Type} {x : Except Fault α} {f : α → Except Fault (Handled β)}
    {o : Timing.Outcome β} (h : ∀ a, x = .ok a → TakesTime id o (f a)) : TakesTime id o (x >>= f) := by
  intro t problem hok
  obtain ⟨a,ha,hok⟩ := exists_of_bind_ok hok
  exact h a ha t problem hok

section Tokens

variable (hactive : s.voices.active = some id)

include hactive

theorem takesTime_rest (text : Text) (context : MusicContext β) :
    TakesTime id ((s.timing id).rest text context) (s.rest text context) := by
  have hinside : ((s.timing id).inGrace || (s.timing id).chord.isSome) =
      (s.graceGroup.isSome || s.chord.isSome) := by simp [timing]
  simp only [MusicState.rest, Timing.rest, hinside, VoiceTable.noteVoice_of_active hactive,
    VoiceTable.ensureActive_of_active hactive]
  split
  · exact takesTime_reject hactive rfl _
  · cases readLength? (β := β) (text.drop 1) with
    | none => exact takesTime_reject hactive rfl _
    | some length =>
      refine takesTime_accept hactive ?_
      rw [timing_step, timing_setMemory]
      rfl

theorem takesTime_multiRest (text : Text) (context : MusicContext β) :
    TakesTime id ((s.timing id).multiRest text context) (s.multiRest text context) := by
  simp only [MusicState.multiRest, Timing.multiRest, VoiceTable.noteVoice_of_active hactive,
    VoiceTable.ensureActive_of_active hactive]
  cases barCount? (β := β) (text.drop 1) with
  | none => exact takesTime_reject hactive rfl _
  | some bars =>
    refine takesTime_accept hactive ?_
    rw [timing_advance, timing_mapMemory _ id rfl rfl rfl]
    rfl

theorem takesTime_barLine : TakesTime id (s.timing id).accept s.barLine := by
  simp only [MusicState.barLine, hactive]
  exact takesTime_accept hactive (timing_mapMemory s id rfl rfl rfl)

theorem takesTime_openGrace : TakesTime id (s.timing id).openGrace s.openGrace := by
  have hinGrace : (s.timing id).inGrace = s.graceGroup.isSome := rfl
  simp only [MusicState.openGrace, Timing.openGrace, hinGrace]
  split
  · exact takesTime_reject hactive rfl _
  · exact takesTime_accept hactive rfl

theorem takesTime_closeGrace : TakesTime id (s.timing id).closeGrace s.closeGrace := by
  have hinGrace : (s.timing id).inGrace = s.graceGroup.isSome := rfl
  simp only [MusicState.closeGrace, Timing.closeGrace, hinGrace,
    VoiceTable.noteVoice_of_active hactive, VoiceTable.ensureActive_of_active hactive]
  cases s.graceGroup with
  | none => exact takesTime_reject hactive rfl _
  | some group => exact takesTime_accept hactive (timing_mapMemory _ id rfl rfl rfl)

theorem takesTime_openTuplet (text : Text) (context : MusicContext β) :
    TakesTime id ((s.timing id).openTuplet text context) (s.openTuplet text context) := by
  unfold MusicState.openTuplet Timing.openTuplet
  cases Tuplet.read? text context.meter with
  | none => exact takesTime_reject hactive rfl _
  | some tuplet =>
    dsimp only
    split
    · exact takesTime_accept hactive rfl
    · exact takesTime_accept hactive rfl

theorem takesTime_tie : TakesTime id (s.timing id).accept s.tie := by
  simp only [MusicState.tie, VoiceTable.noteVoice_of_active hactive,
    VoiceTable.ensureActive_of_active hactive]
  exact takesTime_accept hactive (timing_mapMemory _ id rfl rfl rfl)

theorem takesTime_openChord : TakesTime id (s.timing id).openChord s.openChord := by
  have hinGrace : (s.timing id).inGrace = s.graceGroup.isSome := rfl
  have hopen : (s.timing id).chord.isSome = s.chord.isSome := by simp [timing]
  simp only [MusicState.openChord, Timing.openChord, hinGrace, hopen,
    VoiceTable.noteVoice_of_active hactive, VoiceTable.ensureActive_of_active hactive]
  split
  · exact takesTime_reject hactive rfl _
  · split
    · exact takesTime_reject hactive rfl _
    · exact takesTime_accept hactive (timing_setMemory _ id _)

theorem takesTime_namedDecoration (text : Text) :
    TakesTime id ((s.timing id).namedDecoration text) (s.namedDecoration text) := by
  have hspans : (s.timing id).spans = (s.memory id).spans := rfl
  have hmemory : MusicState.memory { s with voices := s.voices } id = s.memory id := rfl
  simp only [MusicState.namedDecoration, Timing.namedDecoration, hspans, hmemory,
    VoiceTable.noteVoice_of_active hactive, VoiceTable.ensureActive_of_active hactive]
  by_cases hopen : (text.drop 1).dropLast.getLast? = some '('
  · simp only [hopen]
    exact takesTime_accept hactive (timing_setMemory _ id _)
  by_cases hclose : (text.drop 1).dropLast.getLast? = some ')'
  · simp only [hclose]
    cases closeSpan? (spanName ((text.drop 1).dropLast).dropLast) (s.memory id).spans with
    | none => exact takesTime_reject hactive rfl _
    | some spans => exact takesTime_accept hactive (timing_setMemory _ id _)
  · simp only
    exact takesTime_accept hactive rfl

/-- The accidental of a note is remembered for the active voice. -/
theorem resolved_of_active (w : WrittenNote β) (key : Key) :
    s.resolved w key = s.setMemory id ((s.memory id).resolve w key).1 := by
  simp only [MusicState.resolved, VoiceTable.noteVoice_of_active hactive,
    VoiceTable.ensureActive_of_active hactive]

variable {v : Voice β} (hv : s.voices.find? id = some v)

include hv

theorem find?_noteVoice : s.voices.ensureActive.find? s.voices.noteVoice = some v := by
  rw [VoiceTable.noteVoice_of_active hactive, VoiceTable.ensureActive_of_active hactive, hv]

theorem takesTime_brokenRhythm (text : Text) :
    TakesTime id ((s.timing id).brokenRhythm text) (s.brokenRhythm text) := by
  have hlast : (s.timing id).lastAdvance = (s.memory id).lastAdvance := rfl
  simp only [MusicState.brokenRhythm, Timing.brokenRhythm, hactive, hlast, hv]
  split
  · exact takesTime_reject hactive rfl _
  · refine takesTime_bind fun w _ => takesTime_accept hactive ?_
    rw [timing_advance, timing_setMemory]
    rfl

theorem takesTime_addToChord (chord : OpenChord β) (written : Int) (nominal : β) :
    TakesTime id
      (Timing.accept { s.timing id with
        chord := some ⟨chord.factor,chord.firstAdvance <|> some (nominal * chord.factor)⟩ })
      (s.addToChord chord v written nominal) := by
  obtain rfl := VoiceTable.find?_id hv
  refine takesTime_bind ?_
  rintro ⟨w,m,i⟩ hplaced
  obtain ⟨hid,rfl⟩ := place_memory hplaced
  simp only [hid]
  refine takesTime_accept hactive ?_
  rw [timing_setVoice, timing_setMemory]
  rfl

theorem takesTime_addSingle (written : Int) (nominal : β) :
    TakesTime id ((s.timing id).single nominal).accept (s.addSingle v written nominal) := by
  obtain rfl := VoiceTable.find?_id hv
  unfold addSingle
  dsimp only
  generalize hadvance :
    nominal * (s.memory v.id).brokenNext.getD 1.0 * Tuplet.scaleAll s.tuplets = advance
  obtain ⟨more,borrowed,hgraces⟩ := placeGraces_eq v (s.memory v.id).velocity
    (s.memory v.id).graces s.voices.cursor advance s.part
  rw [hgraces]
  refine takesTime_bind ?_
  rintro ⟨w,m,i⟩ hplaced
  obtain ⟨hid,rfl⟩ := place_memory hplaced
  simp only [hid]
  refine takesTime_accept hactive ?_
  rw [timing_step, timing_setVoice, timing_setMemory, ← hadvance]
  rfl

theorem takesTime_note (text : Text) (context : MusicContext β) :
    TakesTime id ((s.timing id).note text context) (s.note text context) := by
  cases hread : WrittenNote.read? (β := β) text with
  | none =>
    simp only [MusicState.note, Timing.note, hread]
    exact takesTime_reject hactive rfl _
  | some w =>
    have hresolved := resolved_of_active hactive w context.key
    obtain ⟨accidentals,hmemory⟩ := exists_resolve (s.memory id) w context.key
    have htiming : (s.resolved w context.key).timing id = s.timing id := by
      rw [hresolved, hmemory, timing_setMemory]
      rfl
    have hactive' : (s.resolved w context.key).voices.active = some id := hresolved ▸ hactive
    have hv' : (s.resolved w context.key).voices.find? id = some v := hresolved ▸ hv
    rw [note_eq context hread (find?_noteVoice hactive hv)]
    cases hgroup : s.graceGroup with
    | some group =>
      have hnote : (s.timing id).note text context = (s.timing id).accept := by
        simp [Timing.note, hread, timing, hgroup]
      rw [hnote]
      have hopen : (s.resolved w context.key).graceGroup = some group := hgroup
      refine takesTime_accept hactive' (Eq.trans ?_ htiming)
      simp only [timing, hopen, Option.isSome_some]
      rfl
    | none =>
      cases hchord : s.chord with
      | some chord =>
        have hadd := takesTime_addToChord hactive' hv' chord
          ((s.memory s.voices.noteVoice).resolve w context.key).2 (context.beats w.length)
        rw [htiming] at hadd
        have hnote : (s.timing id).note text context = Timing.accept { s.timing id with
            chord := some ⟨chord.factor,
              chord.firstAdvance <|> some (context.beats w.length * chord.factor)⟩ } := by
          simp [Timing.note, hread, timing, hgroup, hchord]
        rw [hnote]
        exact hadd
      | none =>
        have hadd := takesTime_addSingle hactive' hv'
          ((s.memory s.voices.noteVoice).resolve w context.key).2 (context.beats w.length)
        rw [htiming] at hadd
        have hnote : (s.timing id).note text context =
            ((s.timing id).single (context.beats w.length)).accept := by
          simp [Timing.note, hread, timing, hgroup, hchord]
        rw [hnote]
        exact hadd

theorem takesTime_closeChord (text : Text) :
    TakesTime id ((s.timing id).closeChord text) (s.closeChord text) := by
  cases hchord : s.chord with
  | none =>
    have hopen : (s.timing id).chord = none := by simp [timing, hchord]
    simp only [MusicState.closeChord, Timing.closeChord, hchord, hopen]
    exact takesTime_reject hactive rfl _
  | some chord =>
    have hopen : (s.timing id).chord = some ⟨chord.factor,chord.firstAdvance⟩ := by
      simp [timing, hchord]
    have hdropped : MusicState.timing { s with chord := none } id =
        { s.timing id with chord := none } := rfl
    cases hlength : readLength? (β := β) (text.drop 1) with
    | none =>
      simp only [MusicState.closeChord, Timing.closeChord, hchord, hopen, hlength]
      exact takesTime_reject (t := { s with chord := none }) hactive hdropped _
    | some multiplier =>
      rw [closeChord_eq hchord hlength (find?_noteVoice hactive hv)]
      simp only [Timing.closeChord, hopen, hlength]
      refine takesTime_bind fun w _ => takesTime_accept ?_ ?_
      · simp only [closed, VoiceTable.ensureActive_of_active hactive]
        exact hactive
      · simp only [closed, VoiceTable.noteVoice_of_active hactive,
          VoiceTable.ensureActive_of_active hactive]
        rw [timing_step, timing_setMemory, timing_setVoice, hdropped]
        rfl

/-- What a token does to the time of the active voice, and what is wrong with it, is told without
the notes. -/
theorem takesTime_handle (token : Token) (context : MusicContext β) :
    TakesTime id ((s.timing id).handle token context) (s.handle token context) := by
  obtain ⟨kind,text,line,column,properties⟩ := token
  cases kind with
  | note => exact takesTime_note hactive hv text context
  | rest => exact takesTime_rest hactive text context
  | multiRest => exact takesTime_multiRest hactive text context
  | bar | repeatStart | repeatEnd | repeatBoth | ending => exact takesTime_barLine hactive
  | chordStart => exact takesTime_openChord hactive
  | chordEnd => exact takesTime_closeChord hactive hv text
  | graceStart => exact takesTime_openGrace hactive
  | graceEnd => exact takesTime_closeGrace hactive
  | tuplet => exact takesTime_openTuplet hactive text context
  | tie => exact takesTime_tie hactive
  | brokenRhythm => exact takesTime_brokenRhythm hactive hv text
  | extendedDecoration => exact takesTime_namedDecoration hactive text
  | unknown => exact takesTime_reject hactive rfl _
  | decoration | field | inlineField | directive | comment | slurStart | slurEnd | chordSymbol
  | continuation | space => exact takesTime_accept hactive rfl

end Tokens

end MusicState
end AbcTune
