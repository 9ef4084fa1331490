import AbcTune.Proofs.Music.Alike

/-! # Music under different settings

The same music is read in a voice twice, under different settings of the voice. As long as no pitch
is limited to the range in either run, each token has the same outcome in both: the clock, the line
under way and all that is remembered are the same, and the notes are alike.
-/
namespace AbcTune

variable {β : Type} [Beats β]

/-! ## A voice alone in its table -/

namespace VoiceTable

variable {t : VoiceTable β} {v : Voice β}

theorem ensureActive_of_sole (h : t.voices = [v]) (hactive : t.active = none) :
    t.ensureActive =
      { t with
        voices := [{ v with status := .active }], active := some v.id, cursor := v.savedTime } := by
  have hid : t.noteVoice = v.id := by
    rw [noteVoice, hactive, order, h]
    rfl
  have hcontains : t.contains v.id = true := by simp [contains, h]
  rw [ensureActive, hid, switchTo, if_neg (by simp [hactive]), suspend_of_none hactive, ensure,
    if_pos hcontains]
  simp [activate, modify, find?, h]

end VoiceTable

namespace MusicState

/-! ## The pitches that sound -/

/-- The written pitches that a note brings to sound: its own, and those of the grace notes that
wait for it unless they wait for the whole chord. -/
def noteSounds (s : MusicState β) (text : Text) (context : MusicContext β) : List Int :=
  match WrittenNote.read? text, s.graceGroup with
  | some w, none =>
    let m := s.memory s.voices.noteVoice
    let written := (m.resolve w context.key).2
    if s.chord.isSome then [written] else gracePitches m.graces ++ [written]
  | _, _ => []

/-- The written pitches that the end of a chord brings to sound. -/
def chordEndSounds (s : MusicState β) (text : Text) : List Int :=
  match s.chord, readLength? (β := β) (text.drop 1) with
  | some chord, some _ => gracePitches chord.graces
  | _, _ => []

def sounds (s : MusicState β) (token : Token) (context : MusicContext β) : List Int :=
  match token.kind with
  | .note => s.noteSounds token.text context
  | .chordEnd => s.chordEndSounds token.text
  | _ => []

/-! ## States that mirror each other -/

/-- A state with another voice in the place of its only one. -/
def withVoice (s : MusicState β) (w : Voice β) (next : Nat) : MusicState β :=
  { s with voices := { s.voices with voices := [w], nextChannel := next } }

/-- Two states of reading with one voice each, which are alike under the settings of `a` and `b`.
The notes that are to be changed later are there. -/
structure Mirrors (a b : Voice β) (next : Nat) (v w : Voice β) (s t : MusicState β) : Prop where
  eq : t = s.withVoice w next
  sole : s.voices.voices = [v]
  active : ∀ id ∈ s.voices.active, id = v.id
  id : b.id = a.id
  alike : Voice.Alike a b v w
  lastGroup : ∀ i ∈ (s.memory v.id).lastGroup, i < v.notes.length
  tiedFrom : ∀ i ∈ (s.memory v.id).tiedFrom, i < v.notes.length
  chord : ∀ c ∈ s.chord, ∀ i ∈ c.notes, i < v.notes.length

/-- A token has the same outcome in both states. -/
def MirrorsAfter (a b : Voice β) (next : Nat) (r r' : Except Fault (Handled β)) : Prop :=
  ∃ s t problem v w, r = .ok (s,problem) ∧ r' = .ok (t,problem) ∧ Mirrors a b next v w s t

variable {a b v w v' w' : Voice β} {next : Nat} {s t : MusicState β}

theorem Mirrors.accept (h : Mirrors a b next v w s t) : MirrorsAfter a b next s.accept t.accept :=
  ⟨s,t,none,v,w,rfl,rfl,h⟩

theorem Mirrors.reject (h : Mirrors a b next v w s t) (problem : MusicProblem) :
    MirrorsAfter a b next (s.reject problem) (t.reject problem) :=
  ⟨s,t,some problem,v,w,rfl,rfl,h⟩

namespace Mirrors

variable (h : Mirrors a b next v w s t)

include h

theorem id_eq : w.id = v.id := h.alike.id_right.trans (h.id.trans h.alike.id_left.symm)

theorem memory_eq (id : String) : t.memory id = s.memory id := by
  rw [h.eq]
  rfl

theorem active_eq : t.voices.active = s.voices.active := by
  rw [h.eq]
  rfl

theorem cursor_eq : t.voices.cursor = s.voices.cursor := by
  rw [h.eq]
  rfl

theorem tuplets_eq : t.tuplets = s.tuplets := by
  rw [h.eq]
  rfl

theorem graceGroup_eq : t.graceGroup = s.graceGroup := by
  rw [h.eq]
  rfl

theorem chord_eq : t.chord = s.chord := by
  rw [h.eq]
  rfl

theorem decorations_eq : t.decorations = s.decorations := by
  rw [h.eq]
  rfl

theorem part_eq : t.part = s.part := by
  rw [h.eq]
  rfl

theorem sole_right : t.voices.voices = [w] := by
  rw [h.eq]
  rfl

theorem find?_left : s.voices.find? v.id = some v := by
  simp [VoiceTable.find?, h.sole]

theorem find?_right : t.voices.find? v.id = some w := by
  simp [VoiceTable.find?, h.sole_right, h.id_eq]

theorem noteVoice_left : s.voices.noteVoice = v.id := by
  unfold VoiceTable.noteVoice
  split
  · next id hid => exact h.active id hid
  · simp [VoiceTable.order, h.sole]

theorem noteVoice_right : t.voices.noteVoice = v.id := by
  unfold VoiceTable.noteVoice
  split
  · next id hid => exact h.active id (h.active_eq ▸ hid)
  · simp [VoiceTable.order, h.sole_right, h.id_eq]

/-! ## Changes to both states -/

theorem setTuplets (tuplets : List Tuplet) :
    Mirrors a b next v w { s with tuplets } { t with tuplets } := by
  obtain ⟨rfl,hsole,hactive,hid,halike,hlast,htied,hchord⟩ := h
  exact ⟨rfl,hsole,hactive,hid,halike,hlast,htied,hchord⟩

theorem setGraceGroup (graceGroup : Option (List (Grace β))) :
    Mirrors a b next v w { s with graceGroup } { t with graceGroup } := by
  obtain ⟨rfl,hsole,hactive,hid,halike,hlast,htied,hchord⟩ := h
  exact ⟨rfl,hsole,hactive,hid,halike,hlast,htied,hchord⟩

theorem setChord (chord : Option (OpenChord β))
    (hnotes : ∀ c ∈ chord, ∀ i ∈ c.notes, i < v.notes.length) :
    Mirrors a b next v w { s with chord } { t with chord } := by
  obtain ⟨rfl,hsole,hactive,hid,halike,hlast,htied,-⟩ := h
  exact ⟨rfl,hsole,hactive,hid,halike,hlast,htied,hnotes⟩

theorem setDecorations (decorations : List Decoration) :
    Mirrors a b next v w { s with decorations } { t with decorations } := by
  obtain ⟨rfl,hsole,hactive,hid,halike,hlast,htied,hchord⟩ := h
  exact ⟨rfl,hsole,hactive,hid,halike,hlast,htied,hchord⟩

theorem setPart (part : Option Char) : Mirrors a b next v w { s with part } { t with part } := by
  obtain ⟨rfl,hsole,hactive,hid,halike,hlast,htied,hchord⟩ := h
  exact ⟨rfl,hsole,hactive,hid,halike,hlast,htied,hchord⟩

theorem setMemory {m : VoiceMemory β} (hlast' : ∀ i ∈ m.lastGroup, i < v.notes.length)
    (htied' : ∀ i ∈ m.tiedFrom, i < v.notes.length) :
    Mirrors a b next v w (s.setMemory v.id m) (t.setMemory v.id m) := by
  obtain ⟨rfl,hsole,hactive,hid,halike,-,-,hchord⟩ := h
  refine ⟨rfl,hsole,hactive,hid,halike,?_,?_,hchord⟩
  · rwa [memory_setMemory]
  · rwa [memory_setMemory]

theorem mapMemory (f : VoiceMemory β → VoiceMemory β)
    (hlast : ∀ i ∈ (f (s.memory v.id)).lastGroup, i < v.notes.length)
    (htied : ∀ i ∈ (f (s.memory v.id)).tiedFrom, i < v.notes.length) :
    Mirrors a b next v w (s.mapMemory v.id f) (t.mapMemory v.id f) := by
  rw [MusicState.mapMemory, MusicState.mapMemory, h.memory_eq]
  exact h.setMemory hlast htied

theorem advance (beats : β) :
    Mirrors a b next v w { s with voices := s.voices.advance beats }
      { t with voices := t.voices.advance beats } := by
  obtain ⟨rfl,hsole,hactive,hid,halike,hlast,htied,hchord⟩ := h
  exact ⟨rfl,hsole,hactive,hid,halike,hlast,htied,hchord⟩

theorem step (beats : β) : Mirrors a b next v w (s.step beats) (t.step beats) := by
  have htuplets := h.tuplets_eq
  have hstep := (h.advance beats).setTuplets (Tuplet.countNote s.tuplets)
  rw [MusicState.step, MusicState.step, htuplets]
  exact hstep

theorem setVoice (halike : Voice.Alike a b v' w') (hext : v.Extends v') :
    Mirrors a b next v' w' (s.setVoice v') (t.setVoice w') := by
  have hw : w'.id = w.id := halike.id_right.trans h.alike.id_right.symm
  have hgrow {i : Nat} (hi : i < v.notes.length) : i < v'.notes.length :=
    Nat.lt_of_lt_of_le hi hext.notes
  obtain ⟨rfl,hsole,hactive,hid,-,hlast,htied,hchord⟩ := h
  refine ⟨?_,?_,fun id hid => (hactive id hid).trans hext.id.symm,hid,halike,?_,?_,
    fun c hc i hi => hgrow (hchord c hc i hi)⟩
  · simp [MusicState.setVoice, withVoice, VoiceTable.modify, hw]
  · simp [MusicState.setVoice, VoiceTable.modify, hsole, hext.id]
  · exact fun i hi => hgrow (hlast i (hext.id ▸ hi))
  · exact fun i hi => hgrow (htied i (hext.id ▸ hi))

/-- The voice is taken up where it is not active yet. It is the one that notes go to. -/
theorem ensureActive : ∃ v' w', s.voices.noteVoice = v'.id ∧ t.voices.noteVoice = v'.id ∧
    Mirrors a b next v' w' { s with voices := s.voices.ensureActive }
      { t with voices := t.voices.ensureActive } := by
  cases hactive : s.voices.active with
  | some id =>
    rw [VoiceTable.ensureActive_of_active hactive,
      VoiceTable.ensureActive_of_active (h.active_eq.trans hactive)]
    exact ⟨v,w,h.noteVoice_left,h.noteVoice_right,h⟩
  | none =>
    have htime : w.savedTime = v.savedTime := (congrArg Voice.savedTime h.alike.right :)
    have hleft := VoiceTable.ensureActive_of_sole h.sole hactive
    have hright : t.voices.ensureActive = { t.voices with
        voices := [{ w with status := .active }], active := some v.id, cursor := v.savedTime } := by
      rw [← h.id_eq, ← htime]
      exact VoiceTable.ensureActive_of_sole h.sole_right (h.active_eq.trans hactive)
    have halike := h.alike
    refine ⟨{ v with status := .active },{ w with status := .active },h.noteVoice_left,
      h.noteVoice_right,?_⟩
    rw [hleft, hright]
    obtain ⟨rfl,-,-,hid,-,hlast,htied,hchord⟩ := h
    refine ⟨rfl,rfl,fun id hid => (Option.some.inj hid).symm,hid,⟨?_,?_,halike.length,halike.notes⟩,
      hlast,htied,hchord⟩
    · exact congrArg (fun u => { u with status := .active }) halike.left
    · exact congrArg (fun u => { u with status := .active }) halike.right

/-! ## Single tokens -/

theorem rest (text : Text) (context : MusicContext β) :
    MirrorsAfter a b next (s.rest text context) (t.rest text context) := by
  obtain ⟨v',w',hleft,hright,hactive⟩ := h.ensureActive
  simp only [MusicState.rest, h.graceGroup_eq, h.chord_eq, h.tuplets_eq, hleft, hright,
    h.memory_eq]
  by_cases hinside : (s.graceGroup.isSome || s.chord.isSome) = true
  · rw [if_pos hinside, if_pos hinside]
    exact h.reject _
  · rw [if_neg hinside, if_neg hinside]
    cases readLength? (β := β) (text.drop 1) with
    | none => exact h.reject _
    | some length =>
      obtain rfl := h.eq
      refine (((hactive.setDecorations []).setMemory ?_ ?_).step _).accept
      · simp
      · simp

theorem multiRest (text : Text) (context : MusicContext β) :
    MirrorsAfter a b next (s.multiRest text context) (t.multiRest text context) := by
  obtain ⟨v',w',hleft,hright,hactive⟩ := h.ensureActive
  simp only [MusicState.multiRest, hleft, hright]
  cases barCount? (β := β) (text.drop 1) with
  | none => exact h.reject _
  | some bars =>
    refine ((hactive.mapMemory _ ?_ ?_).advance _).accept
    · simp
    · simp

theorem barLine : MirrorsAfter a b next s.barLine t.barLine := by
  simp only [MusicState.barLine, h.active_eq]
  cases hactive : s.voices.active with
  | none => exact h.accept
  | some id =>
    obtain rfl := h.active id hactive
    exact (h.mapMemory _ h.lastGroup h.tiedFrom).accept

theorem openGrace : MirrorsAfter a b next s.openGrace t.openGrace := by
  simp only [MusicState.openGrace, h.graceGroup_eq]
  by_cases hgrace : s.graceGroup.isSome = true
  · rw [if_pos hgrace, if_pos hgrace]
    exact h.reject _
  · rw [if_neg hgrace, if_neg hgrace]
    exact (h.setGraceGroup _).accept

theorem closeGrace : MirrorsAfter a b next s.closeGrace t.closeGrace := by
  obtain ⟨v',w',hleft,hright,hactive⟩ := h.ensureActive
  simp only [MusicState.closeGrace, h.graceGroup_eq, hleft, hright]
  cases s.graceGroup with
  | none => exact h.reject _
  | some group =>
    exact ((hactive.setGraceGroup none).mapMemory _ hactive.lastGroup hactive.tiedFrom).accept

theorem openTuplet (text : Text) (context : MusicContext β) :
    MirrorsAfter a b next (s.openTuplet text context) (t.openTuplet text context) := by
  simp only [MusicState.openTuplet, h.tuplets_eq]
  cases Tuplet.read? text context.meter with
  | none => exact h.reject _
  | some tuplet =>
    by_cases hopen : tuplet.isOpen = true
    · simp only [if_pos hopen]
      exact (h.setTuplets _).accept
    · simp only [if_neg hopen]
      exact h.accept

theorem tie : MirrorsAfter a b next s.tie t.tie := by
  obtain ⟨v',w',hleft,hright,hactive⟩ := h.ensureActive
  simp only [MusicState.tie, hleft, hright]
  exact (hactive.mapMemory _ hactive.lastGroup hactive.lastGroup).accept

theorem decorate (name : Text) : MirrorsAfter a b next (s.decorate name) (t.decorate name) := by
  simp only [MusicState.decorate, h.decorations_eq]
  exact (h.setDecorations _).accept

theorem namedDecoration (text : Text) :
    MirrorsAfter a b next (s.namedDecoration text) (t.namedDecoration text) := by
  obtain ⟨v',w',hleft,hright,hactive⟩ := h.ensureActive
  have hmemory : MusicState.memory { t with voices := t.voices.ensureActive } v'.id =
      MusicState.memory { s with voices := s.voices.ensureActive } v'.id := hactive.memory_eq _
  simp only [MusicState.namedDecoration, hleft, hright, hmemory]
  split
  · exact (hactive.mapMemory _ hactive.lastGroup hactive.tiedFrom).accept
  · cases closeSpan? (spanName ((text.drop 1).dropLast).dropLast)
      (MusicState.memory { s with voices := s.voices.ensureActive } v'.id).spans with
    | none => exact hactive.reject _
    | some spans => exact (hactive.mapMemory _ hactive.lastGroup hactive.tiedFrom).accept
  · exact h.decorate _

theorem openChord : MirrorsAfter a b next s.openChord t.openChord := by
  obtain ⟨v',w',hleft,hright,hactive⟩ := h.ensureActive
  simp only [MusicState.openChord, h.graceGroup_eq, h.chord_eq, h.tuplets_eq, h.decorations_eq,
    hleft, hright, h.memory_eq]
  by_cases hchord : s.chord.isSome = true
  · rw [if_pos hchord, if_pos hchord]
    exact h.reject _
  · rw [if_neg hchord, if_neg hchord]
    by_cases hgrace : s.graceGroup.isSome = true
    · rw [if_pos hgrace, if_pos hgrace]
      exact h.reject _
    · rw [if_neg hgrace, if_neg hgrace]
      have hcursor : t.voices.ensureActive.cursor = s.voices.ensureActive.cursor :=
        hactive.cursor_eq
      rw [hcursor]
      have hopened := (hactive.setDecorations []).setChord (some
        { start := s.voices.ensureActive.cursor
          notes := []
          firstAdvance := none
          factor := (s.memory v'.id).brokenNext.getD 1.0 * Tuplet.scaleAll s.tuplets
          decorations := s.decorations
          graces := (s.memory v'.id).graces }) (by simp)
      obtain rfl := h.eq
      refine (hopened.setMemory ?_ ?_).accept
      · exact hactive.lastGroup
      · exact hactive.tiedFrom

theorem brokenRhythm (text : Text) :
    MirrorsAfter a b next (s.brokenRhythm text) (t.brokenRhythm text) := by
  simp only [MusicState.brokenRhythm, h.active_eq]
  cases hactive : s.voices.active with
  | none => exact h.reject _
  | some id =>
    obtain rfl := h.active id hactive
    simp only [h.memory_eq, h.cursor_eq, h.find?_left, h.find?_right]
    by_cases hlast : (s.memory v.id).lastAdvance ≤ 0.0
    · rw [if_pos hlast, if_pos hlast]
      exact h.reject _
    · rw [if_neg hlast, if_neg hlast]
      obtain ⟨v',w',hv,hw,halike,hext⟩ := h.alike.modifyNotes
        (fun _ _ hn => hn.retime (fun start _ => start) fun start duration =>
          remaining
            (s.voices.cursor - (s.memory v.id).lastAdvance +
              (start + duration - (s.voices.cursor - (s.memory v.id).lastAdvance)) *
                (brokenFactors text).1)
            start) h.lastGroup
      simp only [Note.stop, hv, hw, ok_bind]
      have hplaced := h.setVoice halike hext
      rw [← hext.id]
      refine ((hplaced.setMemory ?_ ?_).advance _).accept
      · exact hplaced.lastGroup
      · exact hplaced.tiedFrom

/-! ## Tokens that bring notes to sound -/

theorem addGrace (group : List (Grace β)) (written : Int) (nominal : β) :
    MirrorsAfter a b next (s.addGrace group written nominal) (t.addGrace group written nominal) :=
  (h.setGraceGroup _).accept

theorem addToChord (chord : OpenChord β) (hchord : ∀ i ∈ chord.notes, i < v.notes.length)
    {written : Int} (hreach : a.BothReach b written) (nominal : β) :
    MirrorsAfter a b next (s.addToChord chord v written nominal)
      (t.addToChord chord w written nominal) := by
  obtain ⟨v',w',m,i,hv,hw,halike,hext,hi,hlast,htied⟩ := h.alike.place h.id
    ⟨written,chord.start,nominal * chord.factor,s.decorations ++ chord.decorations⟩ s.part hreach
    h.tiedFrom
  have hid : w'.id = v'.id := halike.id_right.trans (h.id.trans halike.id_left.symm)
  simp only [MusicState.addToChord, h.id_eq, h.memory_eq, h.decorations_eq, h.part_eq, hv, hw,
    ok_bind, hid]
  have hgrow : ∀ {j : Nat}, j < v.notes.length → j < v'.notes.length := fun hj =>
    Nat.lt_of_lt_of_le hj hext.notes
  have hnotes : ∀ j ∈ chord.notes ++ [i], j < v'.notes.length := by
    intro j hj
    rcases List.mem_append.mp hj with hj | hj
    · exact hgrow (hchord j hj)
    · exact List.mem_singleton.mp hj ▸ hi
  have hplaced := (h.setDecorations []).setVoice halike hext
  have hremembered := hplaced.setMemory (m := m) (fun j hj => hgrow (h.lastGroup j (hlast ▸ hj)))
    fun j hj => hgrow (h.tiedFrom j (htied ▸ hj))
  have hnoted := hremembered.setChord (some { chord with
    notes := chord.notes ++ [i]
    firstAdvance := chord.firstAdvance <|> some (nominal * chord.factor) }) (by simpa using hnotes)
  obtain rfl := h.eq
  exact hnoted.accept

theorem addSingle {written : Int} (hreach : a.BothReach b written)
    (hgraces : ∀ p ∈ gracePitches (s.memory v.id).graces, a.BothReach b p) (nominal : β) :
    MirrorsAfter a b next (s.addSingle v written nominal) (t.addSingle w written nominal) := by
  simp only [MusicState.addSingle, h.id_eq, h.memory_eq, h.cursor_eq, h.tuplets_eq, h.part_eq,
    h.decorations_eq]
  generalize nominal * (s.memory v.id).brokenNext.getD 1.0 * Tuplet.scaleAll s.tuplets = advance
  obtain ⟨u,x,borrowed,hu,hx,halike,hext⟩ := h.alike.placeGraces h.id (s.memory v.id).velocity
    hgraces s.voices.cursor advance s.part
  have htied : ∀ i ∈ (s.memory v.id).tiedFrom, i < u.notes.length := fun i hi =>
    Nat.lt_of_lt_of_le (h.tiedFrom i hi) hext.notes
  obtain ⟨v',w',m,i,hv,hw,halike',hext',hi,-,-⟩ := halike.place h.id
    (m := { s.memory v.id with brokenNext := none, graces := [] })
    ⟨written,s.voices.cursor + borrowed,advance - borrowed,s.decorations⟩ s.part hreach htied
  have hid : w'.id = v'.id := halike'.id_right.trans (h.id.trans halike'.id_left.symm)
  simp only [hu, hx, hv, hw, ok_bind, hid]
  have hplaced := (h.setDecorations []).setVoice halike' (hext.trans hext')
  have hremembered := hplaced.setMemory
    (m := { m with tiedFrom := [], lastGroup := [i], lastAdvance := advance })
    (by simpa using hi) (by simp)
  obtain rfl := h.eq
  exact (hremembered.step advance).accept

theorem noteSounds_eq (text : Text) (context : MusicContext β) :
    t.noteSounds text context = s.noteSounds text context := by
  simp only [noteSounds, h.graceGroup_eq, h.noteVoice_left, h.noteVoice_right, h.memory_eq,
    h.chord_eq]

theorem sounds_eq (token : Token) (context : MusicContext β) :
    t.sounds token context = s.sounds token context := by
  simp only [sounds, h.noteSounds_eq, chordEndSounds, h.chord_eq]

theorem note (text : Text) (context : MusicContext β)
    (hreach : ∀ p ∈ s.noteSounds text context, a.BothReach b p) :
    MirrorsAfter a b next (s.note text context) (t.note text context) := by
  obtain ⟨v',w',hleft,hright,hactive⟩ := h.ensureActive
  cases hread : WrittenNote.read? (β := β) text with
  | none =>
    simp only [MusicState.note, hread]
    exact h.reject _
  | some written =>
    have hresolved : Mirrors a b next v' w' (s.resolved written context.key)
        (t.resolved written context.key) := by
      obtain ⟨hlast,htied⟩ := resolve_places (s.memory v'.id) written context.key
      unfold MusicState.resolved
      rw [hleft, hright, h.memory_eq]
      exact hactive.setMemory (hlast ▸ hactive.lastGroup) (htied ▸ hactive.tiedFrom)
    rw [note_eq context hread (hleft ▸ hactive.find?_left),
      note_eq context hread (hright ▸ hactive.find?_right)]
    simp only [noteSounds, hread, hleft] at hreach
    simp only [h.graceGroup_eq, h.chord_eq, hleft, hright, h.memory_eq]
    cases hgrace : s.graceGroup with
    | some group => exact hresolved.addGrace group _ _
    | none =>
      simp only [hgrace] at hreach
      cases hchord : s.chord with
      | some chord =>
        refine hresolved.addToChord chord (hactive.chord chord hchord) (hreach _ ?_) _
        simp [hchord]
      | none =>
        simp only [hchord, Option.isSome_none, Bool.false_eq_true, if_false] at hreach
        have hgraces : (MusicState.memory (s.resolved written context.key) v'.id).graces =
            (s.memory v'.id).graces := by
          rw [MusicState.resolved, hleft, memory_setMemory, resolve_graces]
        refine hresolved.addSingle (hreach _ ?_) (fun p hp => hreach p ?_) _
        · simp
        · rw [hgraces] at hp
          exact List.mem_append_left _ hp

theorem closeChord (text : Text) (hreach : ∀ p ∈ s.chordEndSounds text, a.BothReach b p) :
    MirrorsAfter a b next (s.closeChord text) (t.closeChord text) := by
  obtain ⟨v',w',hleft,hright,hactive⟩ := h.ensureActive
  cases hchord : s.chord with
  | none =>
    simp only [MusicState.closeChord, h.chord_eq, hchord]
    exact h.reject _
  | some chord =>
    have hchord' : t.chord = some chord := h.chord_eq.trans hchord
    cases hlength : readLength? (β := β) (text.drop 1) with
    | none =>
      simp only [MusicState.closeChord, hchord, hchord', hlength]
      exact (h.setChord none (by simp)).reject _
    | some multiplier =>
      simp only [chordEndSounds, hchord, hlength] at hreach
      have hplaces : ∀ i ∈ chord.notes, i < v'.notes.length := hactive.chord chord hchord
      obtain ⟨x,y,hx,hy,halike,hext⟩ := hactive.alike.finishChord h.id (s.memory v'.id).velocity
        chord multiplier (chord.firstAdvance.getD 0.0 * multiplier) s.part hreach hplaces
      rw [closeChord_eq hchord hlength (hleft ▸ hactive.find?_left),
        closeChord_eq hchord' hlength (hright ▸ hactive.find?_right)]
      simp only [hleft, hright, h.memory_eq, h.part_eq, hx, hy, ok_bind]
      have hplaced := (hactive.setChord none (by simp)).setVoice halike hext
      have hclosed := hplaced.setMemory
        (m := { s.memory v'.id with
          tiedFrom := []
          lastGroup := chord.notes
          lastAdvance := chord.firstAdvance.getD 0.0 * multiplier })
        (fun i hi => Nat.lt_of_lt_of_le (hplaces i hi) hext.notes) (by simp)
      unfold MusicState.closed
      simp only [hleft, hright, h.memory_eq]
      rw [hext.id] at hclosed
      exact (hclosed.step _).accept

/-- Whatever the token, it has the same outcome in both states. -/
theorem handle (token : Token) (context : MusicContext β)
    (hreach : ∀ p ∈ s.sounds token context, a.BothReach b p) :
    MirrorsAfter a b next (s.handle token context) (t.handle token context) := by
  obtain ⟨kind,text,line,column,properties⟩ := token
  cases kind with
  | note => exact h.note text context hreach
  | rest => exact h.rest text context
  | multiRest => exact h.multiRest text context
  | bar | repeatStart | repeatEnd | repeatBoth | ending => exact h.barLine
  | chordStart => exact h.openChord
  | chordEnd => exact h.closeChord text hreach
  | graceStart => exact h.openGrace
  | graceEnd => exact h.closeGrace
  | tuplet => exact h.openTuplet text context
  | tie => exact h.tie
  | brokenRhythm => exact h.brokenRhythm text
  | decoration => exact h.decorate text
  | extendedDecoration => exact h.namedDecoration text
  | unknown => exact h.reject _
  | field | inlineField | directive | comment | slurStart | slurEnd | chordSymbol | continuation
  | space => exact h.accept

end Mirrors
end MusicState
end AbcTune
