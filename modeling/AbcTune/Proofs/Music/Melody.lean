import AbcTune.Proofs.Music.NoteWriting
import AbcTune.Proofs.Music.Timing

/-! # What the melody depends on

The pitches and velocities of the notes that are no grace notes make the melody of a voice. A note
is added to it unless it is tied to one of its pitch, so what matters of the notes that are
remembered are their pitches, and neither their places nor their times. While one voice is active
and the open chord is written in it, each token can be followed on the melody alone.
-/
namespace AbcTune

variable {β : Type}

/-! ## Notes without their time -/

/-- What is heard of a note apart from its time. -/
structure Tone where
  pitch : Nat
  velocity : Nat
  grace : Bool
  deriving DecidableEq, Repr

def Note.tone (n : Note β) : Tone := ⟨n.pitch,n.velocity,n.grace⟩

/-- The tones of notes that are no grace notes, in their order. -/
def melodyOf (notes : List (Note β)) : List Tone := (notes.map Note.tone).filter (!·.grace)

theorem melodyOf_append (notes more : List (Note β)) :
    melodyOf (notes ++ more) = melodyOf notes ++ melodyOf more := by
  rw [melodyOf, List.map_append, List.filter_append]
  rfl

theorem map_tone_changeAt {f : Note β → Note β} (hf : ∀ n, (f n).tone = n.tone)
    (places : List Nat) (notes : List (Note β)) :
    (changeAt f places notes).map Note.tone = notes.map Note.tone := by
  refine List.ext_getElem? fun i => ?_
  rw [List.getElem?_map, getElem?_changeAt, Option.map_map, List.getElem?_map]
  refine congrArg (fun g => notes[i]?.map g) (funext fun n => ?_)
  exact Function.Iterate.rec (fun m => Note.tone m = n.tone) rfl (fun m hm => (hf m).trans hm) _

namespace Voice

variable {u v w : Voice β} {places : List Nat} {more : List Tone}

/-- A voice without its notes. -/
def bare (v : Voice β) : Voice β := { v with notes := [] }

/-- The pitches of the notes at some places of a voice. -/
def pitchesAt (v : Voice β) (places : List Nat) : List Nat :=
  places.filterMap fun i => v.notes[i]?.map (·.pitch)

/-- A voice whose notes may have been timed anew and that may have got more notes, which add the
given tones to its melody. -/
structure Continues (v w : Voice β) (more : List Tone) : Prop where
  bare : w.bare = v.bare
  tones : v.notes.map Note.tone <+: w.notes.map Note.tone
  melody : melodyOf w.notes = melodyOf v.notes ++ more

theorem Continues.id (h : Continues v w more) : w.id = v.id := by
  have hid := congrArg Voice.id h.bare
  exact hid

theorem Continues.soundingPitch (h : Continues v w more) (written : Int) :
    w.soundingPitch written = v.soundingPitch written := by
  have hpitch := congrArg (Voice.soundingPitch · written) h.bare
  exact hpitch

/-- The tone of a note that is placed anew, where notes have had `velocity` so far. -/
def toneOf (v : Voice β) (velocity : Int) (decorations : List Decoration) (written : Int) :
    Tone :=
  let shading := Shading.ofDecorations velocity decorations
  { pitch := v.soundingPitch written
    velocity := v.scaleVelocity (clampVelocity (shading.velocity + shading.accent)).toNat
    grace := false }

theorem Continues.toneOf (h : Continues v w more) (velocity : Int)
    (decorations : List Decoration) (written : Int) :
    w.toneOf velocity decorations written = v.toneOf velocity decorations written := by
  have htone := congrArg (Voice.toneOf · velocity decorations written) h.bare
  exact htone

theorem Continues.trans {later : List Tone} (h : Continues u v more) (h' : Continues v w later) :
    Continues u w (more ++ later) where
  bare := h'.bare.trans h.bare
  tones := h.tones.trans h'.tones
  melody := by rw [h'.melody, h.melody, List.append_assoc]

theorem continues_append (v : Voice β) (notes : List (Note β)) :
    Continues v { v with notes := v.notes ++ notes } (melodyOf notes) where
  bare := rfl
  tones := by
    rw [List.map_append]
    exact List.prefix_append _ _
  melody := melodyOf_append v.notes notes

theorem modifyNotes_singleton {f : Note β → Note β} {i : Nat} (h : v.modifyNote f i = .ok w) :
    v.modifyNotes f [i] = .ok w := by
  rw [modifyNotes, h]
  rfl

theorem continues_of_modifyNotes {f : Note β → Note β} (h : v.modifyNotes f places = .ok w)
    (hf : ∀ n, (f n).tone = n.tone) : Continues v w [] := by
  obtain rfl := Voice.modifyNotes_eq h
  have htones := map_tone_changeAt hf places v.notes
  refine ⟨rfl,?_,?_⟩
  · rw [htones]
  · rw [List.append_nil, melodyOf, htones]
    rfl

theorem pitchesAt_append (v : Voice β) (places more : List Nat) :
    v.pitchesAt (places ++ more) = v.pitchesAt places ++ v.pitchesAt more := List.filterMap_append

/-- The notes that were there have kept their pitches. -/
theorem Continues.pitchesAt (h : Continues v w more) (hplaces : ∀ i ∈ places, i < v.notes.length) :
    w.pitchesAt places = v.pitchesAt places := by
  refine List.filterMap_congr fun i hi => ?_
  obtain ⟨later,hlater⟩ := h.tones
  have htone : (w.notes.map Note.tone)[i]? = (v.notes.map Note.tone)[i]? := by
    rw [← hlater, List.getElem?_append_left (by simpa using hplaces i hi)]
  have hpitch := congrArg (Option.map Tone.pitch) htone
  rw [List.getElem?_map, List.getElem?_map, Option.map_map, Option.map_map] at hpitch
  exact hpitch

/-- A tie goes on just where one of its notes has the pitch. -/
theorem isSome_of_tiedNote {pitch : Nat} {found : Option Nat}
    (h : v.tiedNote pitch places = .ok found) :
    found.isSome = true ↔ pitch ∈ v.pitchesAt places := by
  induction places with
  | nil =>
    obtain rfl := Except.ok.inj h
    simp [Voice.pitchesAt]
  | cons i rest ih =>
    unfold tiedNote at h
    unfold Voice.pitchesAt at ih ⊢
    split at h
    · cases h
    · next n hn =>
      rw [List.filterMap_cons, hn]
      simp only [Option.map_some, List.mem_cons]
      split at h
      · next hpitch =>
        obtain rfl := Except.ok.inj h
        simp [hpitch]
      · next hpitch => rw [ih h, or_iff_right (Ne.symm hpitch)]

end Voice

variable [Beats β]

/-- Grace notes add nothing to the melody. -/
theorem continues_addGraces (v : Voice β) (velocity : Int) (factor : β) (part : Option Char)
    (graces : List (Grace β)) (time : β) :
    v.Continues (addGraces v velocity factor part graces time).1 [] := by
  induction graces generalizing v time with
  | nil =>
    have hnil := v.continues_append []
    rw [List.append_nil] at hnil
    exact hnil
  | cons g rest ih => exact (v.continues_append [_]).trans (ih (v.addNote _) _)

theorem continues_placeGraces (v : Voice β) (velocity : Int) (graces : List (Grace β))
    (start principal : β) (part : Option Char) :
    v.Continues (placeGraces v velocity graces start principal part).1 [] := by
  unfold placeGraces
  dsimp only
  split
  · exact continues_addGraces v velocity 0.0 part [] start
  · exact continues_addGraces v velocity _ part graces start

/-- A note that is placed adds its tone to the melody unless it is tied. -/
theorem continues_place {v w : Voice β} {m m' : VoiceMemory β} {p : Placement β}
    {part : Option Char} {i : Nat} (h : place v m p part = .ok (w,m',i)) :
    v.Continues w (if v.soundingPitch p.written ∈ v.pitchesAt m.tiedFrom then []
      else [v.toneOf m.velocity (p.decorations ++ m.spans) p.written]) := by
  unfold place at h
  obtain ⟨tied,htied,h⟩ := exists_of_bind_ok h
  have hpitch := Voice.isSome_of_tiedNote htied
  cases tied with
  | some i =>
    obtain ⟨u,hu,h⟩ := exists_of_bind_ok h
    cases h
    rw [if_pos (hpitch.mp rfl)]
    exact Voice.continues_of_modifyNotes (Voice.modifyNotes_singleton hu) fun _ => rfl
  | none =>
    cases h
    rw [if_neg (mt hpitch.mpr Bool.false_ne_true)]
    exact v.continues_append [_]

theorem pitchesAt_place {v w : Voice β} {m m' : VoiceMemory β} {p : Placement β}
    {part : Option Char} {i : Nat} (h : place v m p part = .ok (w,m',i)) :
    w.pitchesAt [i] = [v.soundingPitch p.written] := by
  obtain ⟨-,-,n,hn,hpitch⟩ := place_ok h
  simp [Voice.pitchesAt, hn, hpitch]

theorem continues_finishChord {v w : Voice β} {velocity : Int} {chord : OpenChord β}
    {multiplier advance : β} {part : Option Char}
    (h : MusicState.finishChord v velocity chord multiplier advance part = .ok w) :
    v.Continues w [] := by
  unfold MusicState.finishChord at h
  obtain ⟨u,hu,h⟩ := exists_of_bind_ok h
  have hmultiplied := Voice.continues_of_modifyNotes hu fun _ => rfl
  split at h
  · exact Except.ok.inj h ▸ hmultiplied
  · have hgraces := continues_placeGraces u velocity chord.graces chord.start advance part
    exact (hmultiplied.trans hgraces).trans (Voice.continues_of_modifyNotes h fun _ => rfl)

/-! ## The melody behind a token -/

/-- What a chord that is open has to do with the melody. -/
structure ChordMelody where
  decorations : List Decoration
  pitches : List Nat

/-- What is remembered of a voice besides places, times and grace notes. -/
def VoiceMemory.bare (m : VoiceMemory β) : VoiceMemory β :=
  { m with graces := [], lastGroup := [], lastAdvance := 0.0, tiedFrom := [], brokenNext := none }

theorem VoiceMemory.resolve_bare (m : VoiceMemory β) (w : WrittenNote β) (key : Key) :
    m.bare.resolve w key = ((m.resolve w key).1.bare,(m.resolve w key).2) := by
  unfold VoiceMemory.resolve
  cases w.accidental with
  | none => rfl
  | some a => rfl

/-- What the melody of the active voice depends on. -/
structure Melody (β : Type) where
  voice : Voice β
  memory : VoiceMemory β
  tones : List Tone
  /-- The pitches of the last note or chord. -/
  last : List Nat
  /-- The pitches that a tie goes on from. -/
  tied : List Nat
  decorations : List Decoration
  inGrace : Bool
  chord : Option ChordMelody

namespace Melody

/-- The melody behind a note that is no grace note. -/
def add (o : Melody β) (decorations : List Decoration) (written : Int) : Melody β :=
  let decorations := decorations ++ o.memory.spans
  let shading := Shading.ofDecorations o.memory.velocity decorations
  { o with
    memory := { o.memory with velocity := shading.lasting }
    tones := o.tones ++ (if o.voice.soundingPitch written ∈ o.tied then []
      else [o.voice.toneOf o.memory.velocity decorations written])
    decorations := [] }

def note (o : Melody β) (text : Text) (context : MusicContext β) : Melody β :=
  match WrittenNote.read? text with
  | none => o
  | some w =>
    let (memory,written) := o.memory.resolve w context.key
    let o := { o with memory }
    if o.inGrace then o
    else
      let pitch := o.voice.soundingPitch written
      match o.chord with
      | some c =>
        { o.add (o.decorations ++ c.decorations) written with
          chord := some { c with pitches := c.pitches ++ [pitch] } }
      | none => { o.add o.decorations written with last := [pitch], tied := [] }

def rest (o : Melody β) (text : Text) : Melody β :=
  if o.inGrace || o.chord.isSome then o
  else
    match readLength? (β := β) (text.drop 1) with
    | none => o
    | some _ => { o with last := [], tied := [], decorations := [] }

def multiRest (o : Melody β) (text : Text) : Melody β :=
  match MusicState.barCount? (β := β) (text.drop 1) with
  | none => o
  | some _ => { o with last := [], tied := [] }

def barLine (o : Melody β) : Melody β :=
  { o with memory := { o.memory with accidentals := [] } }

def openChord (o : Melody β) : Melody β :=
  if o.chord.isSome then o
  else if o.inGrace then o
  else { o with chord := some ⟨o.decorations,[]⟩, decorations := [] }

def closeChord (o : Melody β) (text : Text) : Melody β :=
  match o.chord with
  | none => o
  | some c =>
    let o := { o with chord := none }
    match readLength? (β := β) (text.drop 1) with
    | none => o
    | some _ => { o with last := c.pitches, tied := [] }

def decorate (o : Melody β) (name : Text) : Melody β :=
  { o with decorations := o.decorations ++ [Decoration.ofName (String.ofList name)] }

def namedDecoration (o : Melody β) (text : Text) : Melody β :=
  let name := (text.drop 1).dropLast
  match name.getLast? with
  | some '(' =>
    let span :=
      { Decoration.ofName (MusicState.spanName name.dropLast) with spanning := true }
    { o with memory := { o.memory with spans := o.memory.spans ++ [span] } }
  | some ')' =>
    match MusicState.closeSpan? (MusicState.spanName name.dropLast) o.memory.spans with
    | some spans => { o with memory := { o.memory with spans } }
    | none => o
  | _ => o.decorate name

/-- The melody behind a token, told without times and grace notes. -/
def handle (o : Melody β) (token : Token) (context : MusicContext β) : Melody β :=
  match token.kind with
  | .note => o.note token.text context
  | .rest => o.rest token.text
  | .multiRest => o.multiRest token.text
  | .bar | .repeatStart | .repeatEnd | .repeatBoth | .ending => o.barLine
  | .chordStart => o.openChord
  | .chordEnd => o.closeChord token.text
  | .graceStart => { o with inGrace := true }
  | .graceEnd => { o with inGrace := false }
  | .tie => { o with tied := o.last }
  | .decoration => o.decorate token.text
  | .extendedDecoration => o.namedDecoration token.text
  | _ => o

end Melody

namespace MusicState

variable {s t : MusicState β} {id : String} {v w : Voice β} {o : Melody β}

/-- What the melody of a voice depends on in a state of reading. -/
def melody (s : MusicState β) (v : Voice β) : Melody β where
  voice := v.bare
  memory := (s.memory v.id).bare
  tones := melodyOf v.notes
  last := v.pitchesAt (s.memory v.id).lastGroup
  tied := v.pitchesAt (s.memory v.id).tiedFrom
  decorations := s.decorations
  inGrace := s.graceGroup.isSome
  chord := s.chord.map fun c => ⟨c.decorations,v.pitchesAt c.notes⟩

theorem melody_setMemory (s : MusicState β) (hid : v.id = id) (m : VoiceMemory β) :
    (s.setMemory id m).melody v =
      { s.melody v with
        memory := m.bare, last := v.pitchesAt m.lastGroup, tied := v.pitchesAt m.tiedFrom } := by
  obtain rfl := hid
  simp only [melody, memory_setMemory]
  rfl

theorem melody_keepMemory (s : MusicState β) (hid : v.id = id) {m : VoiceMemory β}
    (hbare : m.bare = (s.memory id).bare) (hlast : m.lastGroup = (s.memory id).lastGroup)
    (htied : m.tiedFrom = (s.memory id).tiedFrom) : (s.setMemory id m).melody v = s.melody v := by
  rw [melody_setMemory s hid, hbare, hlast, htied, ← hid]
  rfl

theorem melody_step (s : MusicState β) (v : Voice β) (beats : β) :
    (s.step beats).melody v = s.melody v := rfl

theorem melody_advance (s : MusicState β) (v : Voice β) (beats : β) :
    MusicState.melody { s with voices := s.voices.advance beats } v = s.melody v := rfl

theorem melody_setVoice (s : MusicState β) (v w : Voice β) :
    (s.setVoice w).melody v = s.melody v := rfl

/-- A token that is handled makes this of the melody of a voice. -/
def Sings (id : String) (o : Melody β) (r : Except Fault (Handled β)) : Prop :=
  ∀ t problem, r = .ok (t,problem) → ∃ v, t.voices.find? id = some v ∧ t.melody v = o

theorem sings_accept (hv : t.voices.find? id = some v) (h : t.melody v = o) :
    Sings id o t.accept := by
  rintro _ _ ⟨⟩
  exact ⟨v,hv,h⟩

theorem sings_reject (hv : t.voices.find? id = some v) (h : t.melody v = o)
    (problem : MusicProblem) : Sings id o (t.reject problem) := by
  rintro _ _ ⟨⟩
  exact ⟨v,hv,h⟩

theorem sings_bind {α : Type} {x : Except Fault α} {f : α → Except Fault (Handled β)}
    (h : ∀ a, x = .ok a → Sings id o (f a)) : Sings id o (x >>= f) := by
  intro t problem hok
  obtain ⟨a,ha,hok⟩ := exists_of_bind_ok hok
  exact h a ha t problem hok

section Tokens

variable {first : MusicState β} (h : Tracks id first v s t)

include h

theorem sings_rest (text : Text) (context : MusicContext β) :
    Sings id ((s.melody v).rest text) (s.rest text context) := by
  have hinside : ((s.melody v).inGrace || (s.melody v).chord.isSome) =
      (s.graceGroup.isSome || s.chord.isSome) := by simp [melody]
  simp only [MusicState.rest, Melody.rest, hinside, h.noteVoice_left, h.ensureActive_left]
  split
  · exact sings_reject h.found rfl _
  · cases readLength? (β := β) (text.drop 1) with
    | none => exact sings_reject h.found rfl _
    | some length =>
      refine sings_accept h.found ?_
      rw [melody_step, melody_setMemory _ h.id_eq, ← h.id_eq]
      rfl

theorem sings_multiRest (text : Text) (context : MusicContext β) :
    Sings id ((s.melody v).multiRest text) (s.multiRest text context) := by
  simp only [MusicState.multiRest, Melody.multiRest, h.noteVoice_left, h.ensureActive_left]
  cases barCount? (β := β) (text.drop 1) with
  | none => exact sings_reject h.found rfl _
  | some bars =>
    refine sings_accept h.found ?_
    rw [melody_advance, mapMemory, melody_setMemory _ h.id_eq, ← h.id_eq]
    rfl

theorem sings_barLine : Sings id (s.melody v).barLine s.barLine := by
  obtain rfl := h.id_eq
  simp only [MusicState.barLine, h.active]
  exact sings_accept h.found (melody_setMemory s rfl _)

theorem sings_openGrace : Sings id { s.melody v with inGrace := true } s.openGrace := by
  unfold MusicState.openGrace
  split
  · next hgroup =>
    refine sings_reject h.found ?_ _
    rw [← hgroup]
    rfl
  · exact sings_accept h.found rfl

theorem sings_closeGrace : Sings id { s.melody v with inGrace := false } s.closeGrace := by
  obtain rfl := h.id_eq
  simp only [MusicState.closeGrace, h.noteVoice_left, h.ensureActive_left]
  cases hgroup : s.graceGroup with
  | none =>
    refine sings_reject h.found ?_ _
    simp [melody, hgroup]
  | some group => exact sings_accept h.found (melody_setMemory _ rfl _)

theorem sings_openTuplet (text : Text) (context : MusicContext β) :
    Sings id (s.melody v) (s.openTuplet text context) := by
  unfold MusicState.openTuplet
  cases Tuplet.read? text context.meter with
  | none => exact sings_reject h.found rfl _
  | some tuplet =>
    dsimp only
    split
    · exact sings_accept h.found rfl
    · exact sings_accept h.found rfl

theorem sings_tie : Sings id { s.melody v with tied := (s.melody v).last } s.tie := by
  obtain rfl := h.id_eq
  simp only [MusicState.tie, h.noteVoice_left, h.ensureActive_left]
  exact sings_accept h.found (melody_setMemory s rfl _)

theorem sings_openChord : Sings id (s.melody v).openChord s.openChord := by
  obtain rfl := h.id_eq
  have hopen : (s.melody v).chord.isSome = s.chord.isSome := by simp [melody]
  have hinGrace : (s.melody v).inGrace = s.graceGroup.isSome := rfl
  simp only [MusicState.openChord, Melody.openChord, hopen, hinGrace, h.noteVoice_left,
    h.ensureActive_left]
  split
  · exact sings_reject h.found rfl _
  · split
    · exact sings_reject h.found rfl _
    · exact sings_accept h.found (melody_setMemory _ rfl _)

theorem sings_decorate (name : Text) :
    Sings id ((s.melody v).decorate name) (s.decorate name) := sings_accept h.found rfl

theorem sings_namedDecoration (text : Text) :
    Sings id ((s.melody v).namedDecoration text) (s.namedDecoration text) := by
  obtain rfl := h.id_eq
  have hspans : (s.melody v).memory.spans = (s.memory v.id).spans := rfl
  have hmemory : MusicState.memory { s with voices := s.voices } v.id = s.memory v.id := rfl
  simp only [MusicState.namedDecoration, Melody.namedDecoration, hspans, hmemory,
    h.noteVoice_left, h.ensureActive_left]
  by_cases hopen : (text.drop 1).dropLast.getLast? = some '('
  · simp only [hopen]
    exact sings_accept h.found (melody_setMemory s rfl _)
  by_cases hclose : (text.drop 1).dropLast.getLast? = some ')'
  · simp only [hclose]
    cases closeSpan? (spanName ((text.drop 1).dropLast).dropLast) (s.memory v.id).spans with
    | none => exact sings_reject h.found rfl _
    | some spans => exact sings_accept h.found (melody_setMemory s rfl _)
  · simp only
    exact sings_decorate h _

/-- The voice that a voice has become stands in its place. -/
theorem found_setVoice {more : List Tone} (hext : v.Continues w more) :
    w.id = id ∧ (s.setVoice w).voices.find? id = some w := by
  have hid : w.id = id := hext.id.trans h.id_eq
  exact ⟨hid,hid ▸ VoiceTable.find?_replace (hid ▸ h.found)⟩

/-- The melody when a voice has become another one. -/
theorem melody_continues {more : List Tone} (hext : v.Continues w more) :
    s.melody w = { s.melody v with tones := (s.melody v).tones ++ more } := by
  obtain rfl := h.id_eq
  have hchord : (s.chord.map fun c => (⟨c.decorations,w.pitchesAt c.notes⟩ : ChordMelody)) =
      s.chord.map fun c => ⟨c.decorations,v.pitchesAt c.notes⟩ := by
    refine Option.map_congr fun c hc => ?_
    rw [hext.pitchesAt (h.chord c hc)]
  simp only [melody, hext.id, hext.bare, hext.melody, hchord, hext.pitchesAt h.lastGroup,
    hext.pitchesAt h.tiedFrom]

theorem sings_brokenRhythm (text : Text) : Sings id (s.melody v) (s.brokenRhythm text) := by
  simp only [MusicState.brokenRhythm, h.active, h.found]
  split
  · exact sings_reject h.found rfl _
  · refine sings_bind fun w hw => ?_
    have hext : v.Continues w [] := Voice.continues_of_modifyNotes hw fun _ => rfl
    obtain ⟨hid,hfound⟩ := found_setVoice h hext
    refine sings_accept hfound ?_
    rw [melody_advance]
    refine Eq.trans (melody_keepMemory _ hid ?_ ?_ ?_) ?_
    · rfl
    · rfl
    · rfl
    · rw [melody_setVoice, melody_continues h hext, List.append_nil]

theorem sings_addToChord {chord : OpenChord β} (hchord : s.chord = some chord) (written : Int)
    (nominal : β) :
    Sings id
      { (s.melody v).add (s.decorations ++ chord.decorations) written with
        chord := some ⟨chord.decorations,
          v.pitchesAt chord.notes ++ [v.soundingPitch written]⟩ }
      (s.addToChord chord v written nominal) := by
  obtain rfl := h.id_eq
  refine sings_bind ?_
  rintro ⟨w,m,i⟩ hplaced
  have hext := continues_place hplaced
  obtain ⟨-,rfl⟩ := place_memory hplaced
  obtain ⟨hid,hfound⟩ := found_setVoice h hext
  have hpitches : w.pitchesAt (chord.notes ++ [i]) =
      v.pitchesAt chord.notes ++ [v.soundingPitch written] := by
    rw [Voice.pitchesAt_append, hext.pitchesAt (h.chord chord hchord), pitchesAt_place hplaced]
  simp only [hid]
  refine sings_accept hfound ?_
  rw [melody_setVoice, melody_setMemory _ hid]
  simp only [melody, hext.bare, hext.melody, Option.map_some, hpitches,
    hext.pitchesAt h.lastGroup, hext.pitchesAt h.tiedFrom]
  rfl

theorem sings_addSingle (hchord : s.chord = none) (written : Int) (nominal : β) :
    Sings id
      { (s.melody v).add s.decorations written with
        last := [v.soundingPitch written], tied := [] }
      (s.addSingle v written nominal) := by
  obtain rfl := h.id_eq
  unfold addSingle
  dsimp only
  generalize nominal * (s.memory v.id).brokenNext.getD 1.0 * Tuplet.scaleAll s.tuplets = advance
  have hgraces := continues_placeGraces v (s.memory v.id).velocity (s.memory v.id).graces
    s.voices.cursor advance s.part
  generalize placeGraces v (s.memory v.id).velocity (s.memory v.id).graces s.voices.cursor advance
    s.part = placed at hgraces ⊢
  obtain ⟨u,borrowed⟩ := placed
  refine sings_bind ?_
  rintro ⟨w,m,i⟩ hplaced
  have hnote := continues_place hplaced
  have hlast := pitchesAt_place hplaced
  obtain ⟨-,rfl⟩ := place_memory hplaced
  have hext := hgraces.trans hnote
  obtain ⟨hid,hfound⟩ := found_setVoice h hext
  simp only [hid]
  refine sings_accept hfound ?_
  rw [melody_step, melody_setVoice, melody_setMemory _ hid]
  have htied : u.pitchesAt (s.memory v.id).tiedFrom = v.pitchesAt (s.memory v.id).tiedFrom :=
    hgraces.pitchesAt h.tiedFrom
  simp only [melody, hext.bare, hext.melody, hlast, hchord, Option.map_none, htied,
    hgraces.soundingPitch, hgraces.toneOf]
  rfl

/-- The accidental of a note is remembered, and nothing else of the melody changes. -/
theorem melody_resolved (w : WrittenNote β) (key : Key) :
    (s.resolved w key).melody v =
      { s.melody v with memory := ((s.melody v).memory.resolve w key).1 } := by
  obtain rfl := h.id_eq
  obtain ⟨hlast,htied⟩ := resolve_places (s.memory v.id) w key
  rw [resolved_of_active h.active, melody_setMemory s rfl, hlast, htied]
  simp only [melody, VoiceMemory.resolve_bare]

theorem sings_note (text : Text) (context : MusicContext β) :
    Sings id ((s.melody v).note text context) (s.note text context) := by
  cases hread : WrittenNote.read? (β := β) text with
  | none =>
    simp only [MusicState.note, Melody.note, hread]
    exact sings_reject h.found rfl _
  | some w =>
    obtain ⟨hlast,htied⟩ := resolve_places (s.memory id) w context.key
    have hnext := h.setMemory (m := ((s.memory id).resolve w context.key).1)
      (hlast ▸ h.lastGroup) (htied ▸ h.tiedFrom)
    rw [← resolved_of_active h.active] at hnext
    have hmelody := melody_resolved h w context.key
    rw [note_eq context hread (find?_noteVoice h.active h.found), h.noteVoice_left]
    have hwritten : ((s.melody v).memory.resolve w context.key).2 =
        ((s.memory id).resolve w context.key).2 := by
      simp only [melody, VoiceMemory.resolve_bare, h.id_eq]
    simp only [Melody.note, hread, hwritten, ← hmelody]
    cases hgroup : s.graceGroup with
    | some group =>
      have hinGrace : (s.melody v).inGrace = true := by simp [melody, hgroup]
      have hopen : (s.resolved w context.key).graceGroup = some group := hgroup
      rw [if_pos hinGrace]
      refine sings_accept hnext.found ?_
      simp only [melody, hopen, Option.isSome_some]
      rfl
    | none =>
      have hinGrace : ¬(s.melody v).inGrace = true := by simp [melody, hgroup]
      rw [if_neg hinGrace]
      cases hchord : s.chord with
      | some chord =>
        have hopen : (s.melody v).chord = some ⟨chord.decorations,v.pitchesAt chord.notes⟩ := by
          simp [melody, hchord]
        simp only [hopen]
        exact sings_addToChord hnext hchord _ _
      | none =>
        have hopen : (s.melody v).chord = none := by simp [melody, hchord]
        simp only [hopen]
        exact sings_addSingle hnext hchord _ _

theorem sings_closeChord (text : Text) :
    Sings id ((s.melody v).closeChord text) (s.closeChord text) := by
  cases hchord : s.chord with
  | none =>
    have hopen : (s.melody v).chord = none := by simp [melody, hchord]
    simp only [MusicState.closeChord, Melody.closeChord, hchord, hopen]
    exact sings_reject h.found rfl _
  | some chord =>
    have hopen : (s.melody v).chord = some ⟨chord.decorations,v.pitchesAt chord.notes⟩ := by
      simp [melody, hchord]
    have hdropped := h.setChord none (by simp)
    cases hlength : readLength? (β := β) (text.drop 1) with
    | none =>
      simp only [MusicState.closeChord, Melody.closeChord, hchord, hopen, hlength]
      exact sings_reject hdropped.found rfl _
    | some multiplier =>
      rw [closeChord_eq hchord hlength (find?_noteVoice h.active h.found)]
      simp only [Melody.closeChord, hopen, hlength]
      refine sings_bind fun w hw => ?_
      have hext := continues_finishChord hw
      obtain ⟨hid,hfound⟩ := found_setVoice hdropped hext
      simp only [closed, h.noteVoice_left, h.ensureActive_left]
      refine sings_accept hfound ?_
      rw [melody_step, melody_setMemory _ hid, melody_setVoice, melody_continues hdropped hext,
        hext.pitchesAt (h.chord chord hchord), List.append_nil, ← h.id_eq]
      rfl

/-- What a token does to the melody of the active voice is told without times, places and grace
notes. -/
theorem sings_handle (token : Token) (context : MusicContext β) :
    Sings id ((s.melody v).handle token context) (s.handle token context) := by
  obtain ⟨kind,text,line,column,properties⟩ := token
  cases kind with
  | note => exact sings_note h text context
  | rest => exact sings_rest h text context
  | multiRest => exact sings_multiRest h text context
  | bar | repeatStart | repeatEnd | repeatBoth | ending => exact sings_barLine h
  | chordStart => exact sings_openChord h
  | chordEnd => exact sings_closeChord h text
  | graceStart => exact sings_openGrace h
  | graceEnd => exact sings_closeGrace h
  | tuplet => exact sings_openTuplet h text context
  | tie => exact sings_tie h
  | brokenRhythm => exact sings_brokenRhythm h text
  | decoration => exact sings_decorate h text
  | extendedDecoration => exact sings_namedDecoration h text
  | unknown => exact sings_reject h.found rfl _
  | field | inlineField | directive | comment | slurStart | slurEnd | chordSymbol | continuation
  | space => exact sings_accept h.found rfl

end Tokens

end MusicState
end AbcTune
