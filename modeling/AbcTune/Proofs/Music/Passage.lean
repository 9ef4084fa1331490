import AbcTune.Proofs.Music.Written

/-! # What music does in time

A voice stands in time by its clock, by its notes and by what is remembered of it for the notes to
come. A token that is handled leaves all voices where they are, or it changes the voice that notes
go to in one of a few ways, which are read off from the handlers once and for all.
-/
namespace AbcTune

section Times

variable {β : Type}

/-- A voice as it stands in time. -/
structure VoiceTime (β : Type) where
  clock : β
  notes : List (Note β)
  graces : List (Grace β)
  lastGroup : List Nat
  lastAdvance : β
  tiedFrom : List Nat
  brokenNext : Option β

def VoiceMemory.timed (m : VoiceMemory β) (clock : β) (notes : List (Note β)) : VoiceTime β :=
  ⟨clock,notes,m.graces,m.lastGroup,m.lastAdvance,m.tiedFrom,m.brokenNext⟩

/-- The accidental of a note only changes which ones are in force. -/
theorem exists_resolve (m : VoiceMemory β) (w : WrittenNote β) (key : Key) :
    ∃ accidentals, (m.resolve w key).1 = { m with accidentals } := by
  unfold VoiceMemory.resolve
  cases w.accidental with
  | none => exact ⟨_,rfl⟩
  | some a => exact ⟨_,rfl⟩

/-- What is open on the line under way. -/
structure OpenLine (β : Type) where
  tuplets : List Tuplet
  graceGroup : Option (List (Grace β))
  chord : Option (OpenChord β)

end Times

namespace MusicState

section States

variable {β : Type} [Beats β] {s t : MusicState β}

def timeOf (s : MusicState β) (id : String) : VoiceTime β :=
  (s.memory id).timed (s.voices.clock id) (s.voices.notesOf id)

/-- The voice that notes go to, as it stands in time. -/
def time (s : MusicState β) : VoiceTime β := s.timeOf s.voices.noteVoice

omit [Beats β] in
/-- What is open on the line under way. -/
def line (s : MusicState β) : OpenLine β := ⟨s.tuplets,s.graceGroup,s.chord⟩

/-- All voices stand in time where they stood, and the active one has stayed active. -/
structure Still (s t : MusicState β) : Prop where
  active : ∀ id, s.voices.active = some id → t.voices.active = some id
  voice : ∀ id, t.timeOf id = s.timeOf id

/-- The voice that notes go to is active and stands at `x` in time, and all others stand where
they stood. -/
structure Turns (s t : MusicState β) (x : VoiceTime β) : Prop where
  active : t.voices.active = some s.voices.noteVoice
  voice : t.timeOf s.voices.noteVoice = x
  others : ∀ id ≠ s.voices.noteVoice, t.timeOf id = s.timeOf id

theorem still_of_memory (hvoices : t.voices = s.voices)
    (hmemory : ∀ id, (t.memory id).timed = (s.memory id).timed) : Still s t where
  active id hid := hvoices ▸ hid
  voice id := by rw [timeOf, timeOf, hvoices, hmemory]

theorem Still.refl (s : MusicState β) : Still s s := ⟨fun _ hid => hid,fun _ => rfl⟩

theorem Still.trans {u : MusicState β} (h : Still s t) (h' : Still t u) : Still s u where
  active id hid := h'.active id (h.active id hid)
  voice id := (h'.voice id).trans (h.voice id)

theorem clock_ensureActive {u : VoiceTable β} (h : u.HasActive) (id : String) :
    u.ensureActive.clock id = u.clock id := by
  change (u.apply .ensureActive).clock id = u.clock id
  exact VoiceTable.clock_apply h rfl id

theorem still_ensureActive (h : s.voices.HasActive) :
    Still s { s with voices := s.voices.ensureActive } where
  active id hid := by
    rw [← VoiceTable.ensureActive_of_active hid] at hid
    exact hid
  voice id := congrArg₂ (s.memory id).timed (clock_ensureActive h id)
    (VoiceTable.notesOf_ensureActive s.voices id)

theorem memory_setMemory_timed {id : String} {m : VoiceMemory β}
    (hm : m.timed = (s.memory id).timed) (other : String) :
    ((s.setMemory id m).memory other).timed = (s.memory other).timed := by
  by_cases hne : other = id
  · subst hne
    rw [memory_setMemory, hm]
  · rw [memory_setMemory_of_ne s m hne]

/-- What is remembered besides places and times makes no difference. -/
theorem still_setMemory {id : String} {m : VoiceMemory β} (hm : m.timed = (s.memory id).timed) :
    Still s (s.setMemory id m) := still_of_memory rfl (memory_setMemory_timed hm)

theorem still_resolved (h : s.voices.HasActive) (w : WrittenNote β) (key : Key) :
    Still s (s.resolved w key) :=
  have ⟨_,haccidentals⟩ := exists_resolve (s.memory s.voices.noteVoice) w key
  (still_ensureActive h).trans (still_setMemory (haccidentals ▸ rfl))

theorem clock_time (h : s.voices.HasActive) : s.time.clock = s.voices.ensureActive.cursor :=
  (clock_ensureActive h _).symm.trans
    (VoiceTable.clock_of_active (VoiceTable.active_switchTo s.voices s.voices.noteVoice))

theorem timeOf_of_ne_active {u : VoiceTable β} {id : String} {cursor : β}
    (hvoices : t.voices = { u with cursor }) (hne : u.active ≠ some id) :
    t.timeOf id = (t.memory id).timed (u.clock id) (u.notesOf id) := by
  have hclock : t.voices.clock id = u.clock id := by
    rw [hvoices, VoiceTable.clock_of_ne hne]
    exact VoiceTable.clock_of_ne (t := { u with cursor }) hne
  have hnotes : t.voices.notesOf id = u.notesOf id := hvoices ▸ rfl
  rw [timeOf, hclock, hnotes]

/-- Tokens change the notes of the voice that notes go to, its cursor and what is remembered of
it. -/
theorem turns_of_voice (h : s.voices.HasActive) {x : VoiceTime β} {v w : Voice β}
    {u : MusicState β} {m : VoiceMemory β}
    (hv : s.voices.ensureActive.find? s.voices.noteVoice = some v)
    (hw : w.id = s.voices.noteVoice)
    (hvoices : t.voices = { s.voices.ensureActive.modify w.id (fun _ => w) with
      cursor := t.voices.cursor })
    (hclock : t.voices.cursor = x.clock)
    (hmemories : t.memories = (u.setMemory s.voices.noteVoice m).memories)
    (hx : m.timed x.clock w.notes = x)
    (hothers : ∀ id ≠ s.voices.noteVoice, u.memory id = s.memory id) : Turns s t x := by
  have hmemory (id : String) : t.memory id = (u.setMemory s.voices.noteVoice m).memory id := by
    rw [memory, memory, hmemories]
  have hactive : t.voices.active = some s.voices.noteVoice :=
    hvoices ▸ VoiceTable.active_switchTo s.voices s.voices.noteVoice
  have hfound : t.voices.find? w.id = some w := by
    rw [hvoices]
    exact VoiceTable.find?_replace (hw ▸ hv)
  refine ⟨hactive,?_,fun id hne => ?_⟩
  · rw [timeOf, VoiceTable.clock_of_active hactive, hclock, ← hw,
      VoiceTable.notesOf_of_find? hfound, hw, hmemory, memory_setMemory, hx]
  · have hother : s.voices.ensureActive.active ≠ some id := fun hid =>
      hne (Option.some.inj (hid.symm.trans (VoiceTable.active_switchTo _ _)))
    have hne' : id ≠ w.id := hw ▸ hne
    have hclock' : (s.voices.ensureActive.modify w.id fun _ => w).clock id =
        s.voices.ensureActive.clock id := by
      rw [VoiceTable.clock_of_ne hother,
        VoiceTable.clock_of_ne (t := s.voices.ensureActive.modify w.id fun _ => w) hother,
        VoiceTable.find?_modify_of_ne (fun _ => w) (fun _ _ => rfl) hne']
    rw [timeOf_of_ne_active hvoices hother, hclock', VoiceTable.notesOf_replace_of_ne hne',
      hmemory, memory_setMemory_of_ne u m hne, hothers id hne]
    exact (still_ensureActive h).voice id

/-- What holds of every voice in time goes on to hold where nothing has changed in time. -/
theorem Still.forall {P : VoiceTime β → Prop} (h : Still s t) (hs : ∀ id, P (s.timeOf id)) :
    ∀ id, P (t.timeOf id) := fun id => (h.voice id).symm ▸ hs id

theorem Turns.forall {P : VoiceTime β → Prop} {x : VoiceTime β} (h : Turns s t x)
    (hs : ∀ id, P (s.timeOf id)) (hx : P x) : ∀ id, P (t.timeOf id) := by
  intro id
  by_cases hid : id = s.voices.noteVoice
  · rw [hid, h.voice]
    exact hx
  · rw [h.others id hid]
    exact hs id

/-- Most tokens leave its notes as they are. -/
theorem turns_of_memory (h : s.voices.HasActive) {x : VoiceTime β} {m : VoiceMemory β}
    (hvoices : t.voices = { s.voices.ensureActive with cursor := t.voices.cursor })
    (hclock : t.voices.cursor = x.clock)
    (hmemories : t.memories = (s.setMemory s.voices.noteVoice m).memories)
    (hx : m.timed x.clock s.time.notes = x) : Turns s t x := by
  have hmemory (id : String) : t.memory id = (s.setMemory s.voices.noteVoice m).memory id := by
    rw [memory, memory, hmemories]
  have hactive : t.voices.active = some s.voices.noteVoice :=
    hvoices ▸ VoiceTable.active_switchTo s.voices s.voices.noteVoice
  have hnotes : t.voices.notesOf s.voices.noteVoice = s.time.notes :=
    hvoices ▸ VoiceTable.notesOf_ensureActive s.voices s.voices.noteVoice
  refine ⟨hactive,?_,fun id hne => ?_⟩
  · rw [timeOf, VoiceTable.clock_of_active hactive, hclock, hnotes, hmemory, memory_setMemory, hx]
  · have hother : s.voices.ensureActive.active ≠ some id := fun hid =>
      hne (Option.some.inj (hid.symm.trans (VoiceTable.active_switchTo _ _)))
    rw [timeOf_of_ne_active hvoices hother, hmemory, memory_setMemory_of_ne s m hne]
    exact (still_ensureActive h).voice id

/-- The pitch that a note sounds at in the voice that notes go to. -/
def pitchOf (s : MusicState β) (w : WrittenNote β) (key : Key) : Option Nat :=
  (s.voices.ensureActive.find? s.voices.noteVoice).map fun v =>
    v.soundingPitch ((s.memory s.voices.noteVoice).resolve w key).2

/-- Whether the next note of the voice that notes go to is cut short. -/
def staccato (s : MusicState β) : Bool :=
  isStaccato (s.decorations ++ (s.chord.map (·.decorations)).getD [] ++
    (s.memory s.voices.noteVoice).spans)

end States

/-- Beats that a note or a rest by itself takes. -/
def advanceOf (s : MusicState Rat) (nominal : Rat) : Rat :=
  nominal * s.time.brokenNext.getD 1 * Tuplet.scaleAll s.tuplets

/-- Where a note starts: with the open chord, or behind the grace notes that wait for it. -/
def noteStart (s : MusicState Rat) (nominal : Rat) : Rat :=
  match s.chord with
  | some chord => chord.start
  | none => s.time.clock + borrowedBeats s.time.graces (s.advanceOf nominal)

/-- Beats that a note sounds for when it is read. -/
def noteBeats (s : MusicState Rat) (nominal : Rat) : Rat :=
  soundingBeats s.staccato
    (match s.chord with
    | some chord => nominal * chord.factor
    | none => s.advanceOf nominal - borrowedBeats s.time.graces (s.advanceOf nominal))

/-- A note whose end is moved away from an origin by a factor. -/
def stretch (origin factor : Rat) (n : Note Rat) : Note Rat :=
  { n with duration := remaining (origin + (n.stop - origin) * factor) n.start }

/-- The notes of a chord that is closed. -/
def closedNotes (chord : OpenChord Rat) (multiplier advance : Rat) (notes : List (Note Rat)) :
    List (Note Rat) :=
  let notes := changeAt (Note.multiply multiplier) chord.notes notes
  if chord.graces.isEmpty then notes
  else changeAt (Note.delay (borrowedBeats chord.graces advance)) chord.notes notes

theorem forall_closedNotes {P : Note Rat → Prop} {chord : OpenChord Rat} {multiplier advance : Rat}
    {notes : List (Note Rat)} (hmultiply : ∀ n, P n → P (n.multiply multiplier))
    (hdelay : ∀ n, P n → P (n.delay (borrowedBeats chord.graces advance)))
    (h : ∀ n ∈ notes, P n) : ∀ n ∈ closedNotes chord multiplier advance notes, P n := by
  have hmultiplied : ∀ n ∈ changeAt (Note.multiply multiplier) chord.notes notes, P n :=
    forall_changeAt hmultiply h
  unfold closedNotes
  dsimp only
  split
  · exact hmultiplied
  · exact forall_changeAt hdelay hmultiplied

theorem closedNotes_of_no_graces {chord : OpenChord Rat} (h : chord.graces = [])
    (multiplier advance : Rat) (notes : List (Note Rat)) :
    closedNotes chord multiplier advance notes =
      changeAt (Note.multiply multiplier) chord.notes notes := by
  unfold closedNotes
  rw [h]
  rfl

/-- Tokens that may do nothing in time: not so a note that can be read, and neither the start of a
chord nor the end of one where there is a chord to be started or ended. -/
structure Quiet (s : MusicState Rat) (token : Token) : Prop where
  note : token.kind = .note → WrittenNote.read? (β := Rat) token.text = none
  chordStart : token.kind = .chordStart → s.chord.isSome ∨ s.graceGroup.isSome
  chordEnd : token.kind = .chordEnd → s.chord = none

/-- What a token that is handled does in time. -/
inductive Passage (s t : MusicState Rat) (token : Token) (context : MusicContext Rat) : Prop
  | still (hquiet : s.Quiet token) (hstill : Still s t) (hline : t.line = s.line)
  | tuplet (u : Tuplet) (hkind : token.kind = .tuplet)
      (hread : Tuplet.read? token.text context.meter = some u)
      (hstill : Still s t) (hline : t.line = { s.line with tuplets := u :: s.tuplets })
  | tie (hkind : token.kind = .tie)
      (hturns : Turns s t { s.time with tiedFrom := s.time.lastGroup }) (hline : t.line = s.line)
  | graceStart (hkind : token.kind = .graceStart) (hstill : Still s t)
      (hline : t.line = { s.line with graceGroup := some [] })
  | graceNote (group : List (Grace Rat)) (w : WrittenNote Rat) (written : Int)
      (hgroup : s.graceGroup = some group) (hread : WrittenNote.read? token.text = some w)
      (hstill : Still s t)
      (hline : t.line = { s.line with
        graceGroup := some (group ++ [⟨written,context.beats w.length * graceScale⟩]) })
  | graceEnd (group : List (Grace Rat)) (hkind : token.kind = .graceEnd)
      (hgroup : s.graceGroup = some group)
      (hturns : Turns s t { s.time with graces := s.time.graces ++ group })
      (hline : t.line = { s.line with graceGroup := none })
  | rest (length : Rat) (hkind : token.kind = .rest) (hchord : s.chord = none)
      (hread : readLength? (token.text.drop 1) = some length)
      (hturns : Turns s t { s.time with
        clock := s.time.clock + s.advanceOf (context.beats length), lastGroup := []
        lastAdvance := s.advanceOf (context.beats length), tiedFrom := [], brokenNext := none })
      (hline : t.line = { s.line with tuplets := Tuplet.countNote s.tuplets })
  | multiRest (bars : Rat) (hkind : token.kind = .multiRest)
      (hread : barCount? (token.text.drop 1) = some bars)
      (hturns : Turns s t { s.time with
        clock := s.time.clock + bars * context.meter.barBeats, lastGroup := [], tiedFrom := [] })
      (hline : t.line = s.line)
  | single (w : WrittenNote Rat) (pitch i : Nat) (more notes : List (Note Rat))
      (hkind : token.kind = .note) (hgroup : s.graceGroup = none) (hchord : s.chord = none)
      (hread : WrittenNote.read? token.text = some w)
      (hpitch : s.pitchOf w context.key = some pitch)
      (hmore : GraceNotes s.time.graces s.time.clock (s.advanceOf (context.beats w.length)) more)
      (hplaced : Lands s.time.tiedFrom pitch (s.noteStart (context.beats w.length))
        (s.noteBeats (context.beats w.length)) (s.time.notes ++ more) i notes)
      (hturns : Turns s t {
        clock := s.time.clock + s.advanceOf (context.beats w.length), notes, graces := []
        lastGroup := [i], lastAdvance := s.advanceOf (context.beats w.length), tiedFrom := []
        brokenNext := none })
      (hline : t.line = { s.line with tuplets := Tuplet.countNote s.tuplets })
  | chordStart (chord : OpenChord Rat) (hkind : token.kind = .chordStart)
      (hchord : s.chord = none) (hstart : chord.start = s.time.clock)
      (hnotes : chord.notes = []) (hfirst : chord.firstAdvance = none)
      (hfactor : chord.factor = s.advanceOf 1) (hgraces : chord.graces = s.time.graces)
      (hturns : Turns s t { s.time with graces := [], brokenNext := none })
      (hline : t.line = { s.line with chord := some chord })
  | chordNote (chord : OpenChord Rat) (w : WrittenNote Rat) (pitch i : Nat)
      (notes : List (Note Rat)) (hkind : token.kind = .note) (hgroup : s.graceGroup = none)
      (hchord : s.chord = some chord) (hread : WrittenNote.read? token.text = some w)
      (hpitch : s.pitchOf w context.key = some pitch)
      (hplaced : Lands s.time.tiedFrom pitch (s.noteStart (context.beats w.length))
        (s.noteBeats (context.beats w.length)) s.time.notes i notes)
      (hturns : Turns s t { s.time with notes })
      (hline : t.line = { s.line with
        chord := some { chord with
          notes := chord.notes ++ [i]
          firstAdvance := chord.firstAdvance <|> some (context.beats w.length * chord.factor) } })
  | chordLost (hkind : token.kind = .chordEnd)
      (hread : readLength? (β := Rat) (token.text.drop 1) = none) (hstill : Still s t)
      (hline : t.line = { s.line with chord := none })
  | chordEnd (chord : OpenChord Rat) (multiplier : Rat) (more : List (Note Rat))
      (hkind : token.kind = .chordEnd) (hchord : s.chord = some chord)
      (hread : readLength? (token.text.drop 1) = some multiplier)
      (hplaces : ∀ i ∈ chord.notes, i < s.time.notes.length)
      (hmore : GraceNotes chord.graces chord.start (chord.firstAdvance.getD 0 * multiplier) more)
      (hturns : Turns s t { s.time with
        clock := s.time.clock + chord.firstAdvance.getD 0 * multiplier
        notes := closedNotes chord multiplier (chord.firstAdvance.getD 0 * multiplier)
          s.time.notes ++ more
        lastGroup := chord.notes, lastAdvance := chord.firstAdvance.getD 0 * multiplier
        tiedFrom := [] })
      (hline : t.line = { s.line with tuplets := Tuplet.countNote s.tuplets, chord := none })
  | brokenRhythm (factor next : Rat) (hkind : token.kind = .brokenRhythm)
      (hfactors : brokenFactors token.text = (factor,next)) (hlast : 0 < s.time.lastAdvance)
      (hturns : Turns s t { s.time with
        clock := s.time.clock + s.time.lastAdvance * (factor - 1)
        notes := changeAt (stretch (s.time.clock - s.time.lastAdvance) factor) s.time.lastGroup
          s.time.notes
        lastAdvance := s.time.lastAdvance * factor, brokenNext := some next })
      (hline : t.line = s.line)

section Handlers

variable {s t : MusicState Rat} {token : Token} {context : MusicContext Rat}
  {problem : Option MusicProblem}

theorem quiet_of_kind {kind : TokenKind} (h : token.kind = kind) (hnote : kind ≠ .note)
    (hstart : kind ≠ .chordStart) (hend : kind ≠ .chordEnd) : s.Quiet token := by
  subst h
  exact ⟨fun h => absurd h hnote,fun h => absurd h hstart,fun h => absurd h hend⟩

theorem passage_refl (hquiet : s.Quiet token) : Passage s s token context :=
  .still hquiet (.refl s) rfl

theorem passage_multiRest (h : s.InRange) (hkind : token.kind = .multiRest)
    (hok : s.multiRest token.text context = .ok (t,problem)) : Passage s t token context := by
  unfold MusicState.multiRest at hok
  split at hok
  · cases hok
    exact passage_refl (quiet_of_kind hkind nofun nofun nofun)
  · next bars hread =>
    cases hok
    have hclock := congrArg (· + bars * context.meter.barBeats) (clock_time h.active).symm
    exact .multiRest bars hkind hread (turns_of_memory h.active rfl hclock rfl rfl) rfl

theorem passage_barLine (hquiet : s.Quiet token) (hok : s.barLine = .ok (t,problem)) :
    Passage s t token context := by
  unfold MusicState.barLine at hok
  split at hok
  · cases hok
    exact passage_refl hquiet
  · cases hok
    exact .still hquiet (still_setMemory rfl) rfl

theorem passage_openGrace (hkind : token.kind = .graceStart)
    (hok : s.openGrace = .ok (t,problem)) : Passage s t token context := by
  unfold MusicState.openGrace at hok
  split at hok
  · cases hok
    exact passage_refl (quiet_of_kind hkind nofun nofun nofun)
  · cases hok
    exact .graceStart hkind (still_of_memory rfl fun _ => rfl) rfl

theorem passage_closeGrace (h : s.InRange) (hkind : token.kind = .graceEnd)
    (hok : s.closeGrace = .ok (t,problem)) : Passage s t token context := by
  unfold MusicState.closeGrace at hok
  split at hok
  · cases hok
    exact passage_refl (quiet_of_kind hkind nofun nofun nofun)
  · next group hgroup =>
    cases hok
    have hclock := (clock_time h.active).symm
    exact .graceEnd group hkind hgroup (turns_of_memory h.active rfl hclock rfl rfl) rfl

theorem passage_openTuplet (hkind : token.kind = .tuplet)
    (hok : s.openTuplet token.text context = .ok (t,problem)) : Passage s t token context := by
  unfold MusicState.openTuplet at hok
  split at hok
  · cases hok
    exact passage_refl (quiet_of_kind hkind nofun nofun nofun)
  · next u hread =>
    split at hok
    · cases hok
      exact .tuplet u hkind hread (still_of_memory rfl fun _ => rfl) rfl
    · cases hok
      exact passage_refl (quiet_of_kind hkind nofun nofun nofun)

theorem passage_tie (h : s.InRange) (hkind : token.kind = .tie)
    (hok : s.tie = .ok (t,problem)) : Passage s t token context := by
  cases hok
  exact .tie hkind (turns_of_memory h.active rfl (clock_time h.active).symm rfl rfl) rfl

theorem passage_decorate (hquiet : s.Quiet token) {name : Text}
    (hok : s.decorate name = .ok (t,problem)) : Passage s t token context := by
  cases hok
  exact .still hquiet (still_of_memory rfl fun _ => rfl) rfl

theorem passage_namedDecoration (h : s.InRange) (hquiet : s.Quiet token) {text : Text}
    (hok : s.namedDecoration text = .ok (t,problem)) : Passage s t token context := by
  have hactive := still_ensureActive h.active
  unfold MusicState.namedDecoration at hok
  dsimp only at hok
  split at hok
  · cases hok
    exact .still hquiet (hactive.trans (still_setMemory rfl)) rfl
  · split at hok
    · cases hok
      exact .still hquiet (hactive.trans (still_setMemory rfl)) rfl
    · cases hok
      exact .still hquiet hactive rfl
  · exact passage_decorate hquiet hok

theorem advanceOf_eq (s : MusicState Rat) (nominal : Rat) :
    nominal * (s.memory s.voices.noteVoice).brokenNext.getD 1.0 * Tuplet.scaleAll s.tuplets =
      s.advanceOf nominal := by
  have hone : (1.0 : Rat) = 1 := by norm_num
  rw [hone]
  rfl

theorem passage_rest (h : s.InRange) (hkind : token.kind = .rest)
    (hok : s.rest token.text context = .ok (t,problem)) : Passage s t token context := by
  unfold MusicState.rest at hok
  split at hok
  · cases hok
    exact passage_refl (quiet_of_kind hkind nofun nofun nofun)
  · next hinside =>
    split at hok
    · cases hok
      exact passage_refl (quiet_of_kind hkind nofun nofun nofun)
    · next length hread =>
      dsimp only at hok
      rw [advanceOf_eq] at hok
      cases hok
      have hchord : s.chord = none := by
        rw [Bool.or_eq_true, not_or] at hinside
        simpa using hinside.2
      have hclock := congrArg (· + s.advanceOf (context.beats length)) (clock_time h.active).symm
      exact .rest length hkind hchord hread (turns_of_memory h.active rfl hclock rfl rfl) rfl

theorem passage_openChord (h : s.InRange) (hkind : token.kind = .chordStart)
    (hok : s.openChord = .ok (t,problem)) : Passage s t token context := by
  unfold MusicState.openChord at hok
  split at hok
  · next hopen =>
    cases hok
    refine passage_refl ⟨fun h => ?_,fun _ => .inl hopen,fun h => ?_⟩ <;> cases hkind.symm.trans h
  · next hclosed =>
    split at hok
    · next hgroup =>
      cases hok
      refine passage_refl ⟨fun h => ?_,fun _ => .inr hgroup,fun h => ?_⟩ <;>
        cases hkind.symm.trans h
    · cases hok
      have hchord : s.chord = none := by simpa using hclosed
      have hclock := (clock_time h.active).symm
      refine .chordStart _ hkind hchord hclock rfl rfl ?_ rfl
        (turns_of_memory h.active rfl hclock rfl rfl) rfl
      rw [← advanceOf_eq, one_mul]

theorem passage_brokenRhythm (h : s.InRange) (hkind : token.kind = .brokenRhythm)
    (hok : s.brokenRhythm token.text = .ok (t,problem)) : Passage s t token context := by
  have hone : (1.0 : Rat) = 1 := by norm_num
  unfold MusicState.brokenRhythm at hok
  split at hok
  · cases hok
    exact passage_refl (quiet_of_kind hkind nofun nofun nofun)
  · next id hactive =>
    have hid := VoiceTable.noteVoice_of_active hactive
    have hensure := VoiceTable.ensureActive_of_active hactive
    dsimp only at hok
    split at hok
    · cases hok
      exact passage_refl (quiet_of_kind hkind nofun nofun nofun)
    · next hlast =>
      obtain ⟨v,hv⟩ := VoiceTable.exists_find? (h.active id hactive)
      rw [hv] at hok
      obtain ⟨w,hw,hok⟩ := exists_of_bind_ok hok
      obtain rfl := Voice.modifyNotes_eq hw
      cases hok
      have hclock : s.time.clock = s.voices.cursor := hensure ▸ clock_time h.active
      rw [Beats.zero_eq, not_le] at hlast
      obtain rfl := hid
      have hnotes : s.time.notes = v.notes := VoiceTable.notesOf_of_find? hv
      refine .brokenRhythm _ _ hkind rfl hlast ?_ rfl
      rw [hclock, hnotes]
      let w : Voice Rat := { v with
        notes := changeAt (stretch (s.voices.cursor - s.time.lastAdvance)
          (brokenFactors token.text).1) s.time.lastGroup v.notes }
      have hid : v.id = s.voices.noteVoice := VoiceTable.find?_id hv
      refine turns_of_voice h.active ((congrArg (VoiceTable.find? · _) hensure).trans hv)
        (w := w) hid ?_ ?_ rfl rfl fun _ _ => rfl
      · rw [hensure]
        rfl
      · exact congrArg (fun one : Rat => s.voices.cursor +
          (s.memory s.voices.noteVoice).lastAdvance * ((brokenFactors token.text).1 - one)) hone

section Notes

variable {w : WrittenNote Rat} {v : Voice Rat} (h : s.InRange) (hkind : token.kind = .note)
  (hgroup : s.graceGroup = none) (hread : WrittenNote.read? token.text = some w)
  (hv : s.voices.ensureActive.find? s.voices.noteVoice = some v)

include h hkind hgroup hread hv

theorem passage_addToChord {chord : OpenChord Rat} (hchord : s.chord = some chord)
    (hok : (s.resolved w context.key).addToChord chord v
      ((s.memory s.voices.noteVoice).resolve w context.key).2 (context.beats w.length) =
        .ok (t,problem)) : Passage s t token context := by
  have hid := VoiceTable.find?_id hv
  have hnotes : s.time.notes = v.notes :=
    (VoiceTable.notesOf_ensureActive _ _).symm.trans (VoiceTable.notesOf_of_find? hv)
  obtain ⟨accidentals,haccidentals⟩ := exists_resolve (s.memory s.voices.noteVoice) w context.key
  have hmemory : (s.resolved w context.key).memory v.id =
      { s.memory s.voices.noteVoice with accidentals } := by
    rw [hid, MusicState.resolved, memory_setMemory, haccidentals]
  have htied : ∀ i ∈ (s.memory s.voices.noteVoice).tiedFrom, i < v.notes.length :=
    hnotes ▸ h.tiedFrom s.voices.noteVoice
  unfold MusicState.addToChord at hok
  rw [hmemory] at hok
  obtain ⟨⟨u,m,i⟩,hplace,hok⟩ := exists_of_bind_ok hok
  cases hok
  obtain ⟨hu,⟨velocity,rfl⟩,hplaced⟩ :=
    lands_of_place (m := { s.memory s.voices.noteVoice with accidentals }) htied hplace
  have huid : u.id = s.voices.noteVoice := hu.trans hid
  have hmemories := congrArg (fun id => ((s.resolved w context.key).setMemory id
    { s.memory s.voices.noteVoice with accidentals, velocity }).memories) huid
  refine .chordNote chord w
    (v.soundingPitch ((s.memory s.voices.noteVoice).resolve w context.key).2) i u.notes hkind
    hgroup hchord hread (by rw [pitchOf, hv]; rfl) ?_
    (turns_of_voice h.active hv huid rfl (clock_time h.active).symm hmemories rfl
      fun id hne => memory_setMemory_of_ne _ _ hne) rfl
  rw [hnotes, noteStart, noteBeats, staccato, hchord]
  exact hplaced

theorem passage_addSingle (hchord : s.chord = none)
    (hok : (s.resolved w context.key).addSingle v
      ((s.memory s.voices.noteVoice).resolve w context.key).2 (context.beats w.length) =
        .ok (t,problem)) : Passage s t token context := by
  have hid := VoiceTable.find?_id hv
  have hnotes : s.time.notes = v.notes :=
    (VoiceTable.notesOf_ensureActive _ _).symm.trans (VoiceTable.notesOf_of_find? hv)
  obtain ⟨accidentals,haccidentals⟩ := exists_resolve (s.memory s.voices.noteVoice) w context.key
  have hmemory : (s.resolved w context.key).memory v.id =
      { s.memory s.voices.noteVoice with accidentals } := by
    rw [hid, MusicState.resolved, memory_setMemory, haccidentals]
  unfold MusicState.addSingle at hok
  dsimp only at hok
  rw [hmemory] at hok
  have hcursor : (s.resolved w context.key).voices.cursor = s.time.clock := (clock_time h.active).symm
  have htuplets : (s.resolved w context.key).tuplets = s.tuplets := rfl
  obtain ⟨more,hgraces,hmore⟩ := placeGraces_spec_exact v (s.memory s.voices.noteVoice).velocity
    (s.memory s.voices.noteVoice).graces s.time.clock (s.advanceOf (context.beats w.length))
    (s.resolved w context.key).part
  dsimp only at hok
  rw [hcursor, htuplets, advanceOf_eq, hgraces] at hok
  obtain ⟨⟨u,m,i⟩,hplace,hok⟩ := exists_of_bind_ok hok
  cases hok
  have htied : ∀ i ∈ (s.memory s.voices.noteVoice).tiedFrom, i < (v.notes ++ more).length := by
    intro i hi
    have hlt : i < v.notes.length := hnotes ▸ h.tiedFrom s.voices.noteVoice i hi
    rw [List.length_append]
    omega
  obtain ⟨hu,⟨velocity,rfl⟩,hplaced⟩ := lands_of_place
    (v := { v with notes := v.notes ++ more })
    (m := { s.memory s.voices.noteVoice with accidentals, brokenNext := none, graces := [] })
    htied hplace
  have huid : u.id = s.voices.noteVoice := hu.trans hid
  have hmemories := congrArg (fun id => ((s.resolved w context.key).setMemory id
    { s.memory s.voices.noteVoice with
      accidentals, velocity, brokenNext := none, graces := [], tiedFrom := [], lastGroup := [i]
      lastAdvance := s.advanceOf (context.beats w.length) }).memories) huid
  have hclock := congrArg (· + s.advanceOf (context.beats w.length)) (clock_time h.active).symm
  refine .single w
    (v.soundingPitch ((s.memory s.voices.noteVoice).resolve w context.key).2) i more u.notes hkind
    hgroup hchord hread (by rw [pitchOf, hv]; rfl) hmore ?_
    (turns_of_voice h.active hv huid rfl hclock hmemories rfl
      fun id hne => memory_setMemory_of_ne _ _ hne) rfl
  rw [hnotes, noteStart, noteBeats, staccato, hchord, Option.map_none, Option.getD_none,
    List.append_nil]
  exact hplaced

end Notes

theorem passage_note (h : s.InRange) (hkind : token.kind = .note)
    (hok : s.note token.text context = .ok (t,problem)) : Passage s t token context := by
  cases hread : WrittenNote.read? (β := Rat) token.text with
  | none =>
    rw [MusicState.note, hread] at hok
    cases hok
    refine passage_refl ⟨fun _ => hread,fun h => ?_,fun h => ?_⟩ <;> cases hkind.symm.trans h
  | some w =>
    obtain ⟨v,hv,-⟩ := h.active.exists_noteVoice
    rw [note_eq context hread hv] at hok
    cases hgroup : s.graceGroup with
    | some group =>
      rw [hgroup] at hok
      cases hok
      exact .graceNote group w _ hgroup hread
        ((still_resolved h.active w context.key).trans (still_of_memory rfl fun _ => rfl)) rfl
    | none =>
      cases hchord : s.chord with
      | some chord =>
        rw [hgroup, hchord] at hok
        exact passage_addToChord h hkind hgroup hread hv hchord hok
      | none =>
        rw [hgroup, hchord] at hok
        exact passage_addSingle h hkind hgroup hread hv hchord hok

theorem finishChord_exact {v w : Voice Rat} {velocity : Int} {chord : OpenChord Rat}
    {multiplier advance : Rat} {part : Option Char}
    (h : finishChord v velocity chord multiplier advance part = .ok w) :
    w.id = v.id ∧ ∃ more, w.notes = closedNotes chord multiplier advance v.notes ++ more ∧
      (∀ i ∈ chord.notes, i < v.notes.length) ∧ GraceNotes chord.graces chord.start advance more := by
  unfold finishChord at h
  obtain ⟨u,hu,h⟩ := exists_of_bind_ok h
  have hplaces := Voice.lt_of_modifyNotes hu
  obtain rfl := Voice.modifyNotes_eq hu
  unfold closedNotes
  split at h
  · next hgraces =>
    obtain rfl := Except.ok.inj h
    rw [if_pos hgraces]
    have hgraces : chord.graces = [] := List.isEmpty_iff.mp hgraces
    exact ⟨rfl,[],(List.append_nil _).symm,hplaces,hgraces ▸ graceNotes_nil chord.start advance⟩
  · next hgraces =>
    obtain ⟨more,hplaced,hmore⟩ := placeGraces_spec_exact
      { v with notes := changeAt (Note.multiply multiplier) chord.notes v.notes } velocity
      chord.graces chord.start advance part
    rw [if_neg hgraces]
    rw [show (fun n : Note Rat => { n with duration := n.duration * multiplier }) =
      Note.multiply multiplier from rfl, hplaced] at h
    obtain rfl := Voice.modifyNotes_eq h
    have hlength : (changeAt (Note.multiply multiplier) chord.notes v.notes).length =
      v.notes.length := List.length_mapIdx
    exact ⟨rfl,more,changeAt_append (fun i hi => hlength.symm ▸ hplaces i hi) more,hplaces,hmore⟩

theorem passage_closeChord (h : s.InRange) (hkind : token.kind = .chordEnd)
    (hok : s.closeChord token.text = .ok (t,problem)) : Passage s t token context := by
  cases hchord : s.chord with
  | none =>
    rw [MusicState.closeChord, hchord] at hok
    cases hok
    refine passage_refl ⟨fun h => ?_,fun h => ?_,fun _ => hchord⟩ <;> cases hkind.symm.trans h
  | some chord =>
    cases hread : readLength? (β := Rat) (token.text.drop 1) with
    | none =>
      rw [MusicState.closeChord, hchord, hread] at hok
      cases hok
      exact .chordLost hkind hread (still_of_memory rfl fun _ => rfl) rfl
    | some multiplier =>
      obtain ⟨v,hv,hid⟩ := h.active.exists_noteVoice
      have hnotes : s.time.notes = v.notes :=
        (VoiceTable.notesOf_ensureActive _ _).symm.trans (VoiceTable.notesOf_of_find? hv)
      rw [closeChord_eq hchord hread hv, Beats.zero_eq] at hok
      obtain ⟨w,hw,hok⟩ := exists_of_bind_ok hok
      cases hok
      obtain ⟨hwid,more,hwnotes,hplaces,hmore⟩ := finishChord_exact hw
      have hclock := congrArg (· + chord.firstAdvance.getD 0 * multiplier) (clock_time h.active).symm
      refine .chordEnd chord multiplier more hkind hchord hread (hnotes ▸ hplaces) hmore
        (turns_of_voice h.active hv (hwid.trans hid) rfl hclock rfl ?_ fun _ _ => rfl) rfl
      rw [hwnotes, hnotes]
      rfl

theorem InRange.passage (h : s.InRange) (hok : s.handle token context = .ok (t,problem)) :
    Passage s t token context := by
  obtain ⟨kind,text,line,column,properties⟩ := token
  cases kind with
  | note => exact passage_note h rfl hok
  | rest => exact passage_rest h rfl hok
  | multiRest => exact passage_multiRest h rfl hok
  | bar | repeatStart | repeatEnd | repeatBoth | ending =>
    exact passage_barLine (quiet_of_kind rfl nofun nofun nofun) hok
  | chordStart => exact passage_openChord h rfl hok
  | chordEnd => exact passage_closeChord h rfl hok
  | graceStart => exact passage_openGrace rfl hok
  | graceEnd => exact passage_closeGrace h rfl hok
  | tuplet => exact passage_openTuplet rfl hok
  | tie => exact passage_tie h rfl hok
  | brokenRhythm => exact passage_brokenRhythm h rfl hok
  | decoration => exact passage_decorate (quiet_of_kind rfl nofun nofun nofun) hok
  | extendedDecoration => exact passage_namedDecoration h (quiet_of_kind rfl nofun nofun nofun) hok
  | unknown | field | inlineField | directive | comment | slurStart | slurEnd | chordSymbol
  | continuation | space =>
    cases hok
    exact passage_refl (quiet_of_kind rfl nofun nofun nofun)

end Handlers

end MusicState
end AbcTune
