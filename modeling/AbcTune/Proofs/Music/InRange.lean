import AbcTune.Proofs.Music.Moves
import AbcTune.Proofs.Music.OneVoice
import AbcTune.Proofs.Voice.Notes

/-! # Places that stay in range

Between tokens reading remembers places of notes: those of the last note or chord of each voice,
those that a tie goes on from, and those of the chord that is open. The first two belong to a voice
and stay in range there. The last belong to no voice, so that closing a chord fails where the voice
that notes now go to is too short for them. No other token fails.
-/
namespace AbcTune

variable {β : Type}

/-! ## Where a note is written -/

namespace Voice

variable {v w : Voice β} {pitch : Nat} {places : List Nat}

/-- Where a note of a pitch is written: into the first of the notes that a tie goes on from that
has the pitch, else behind all notes. -/
def placeFor (v : Voice β) (pitch : Nat) (tied : List Nat) : Nat :=
  (tied.find? fun i => v.notes[i]?.any (·.pitch = pitch)).getD v.notes.length

theorem tiedNote_eq (h : ∀ i ∈ places, i < v.notes.length) :
    v.tiedNote pitch places = .ok (places.find? fun i => v.notes[i]?.any (·.pitch = pitch)) := by
  induction places with
  | nil => rfl
  | cons i rest ih =>
    have hi : i < v.notes.length := h i List.mem_cons_self
    have hnote : v.notes[i]? = some v.notes[i] := List.getElem?_eq_getElem hi
    rw [tiedNote, hnote, List.find?_cons, hnote]
    by_cases hpitch : v.notes[i].pitch = pitch
    · simp [hpitch]
    · simp [hpitch, ih fun j hj => h j (List.mem_cons_of_mem _ hj)]

/-- Notes at places that are not all there cannot be changed. -/
theorem modifyNotes_eq_error (f : Note β → Note β) (h : ∃ i ∈ places, v.notes.length ≤ i) :
    ∃ fault, v.modifyNotes f places = .error fault := by
  induction places generalizing v with
  | nil =>
    obtain ⟨i,hi,-⟩ := h
    exact absurd hi List.not_mem_nil
  | cons i rest ih =>
    unfold modifyNotes modifyNote
    rcases Nat.lt_or_ge i v.notes.length with hi | hi
    · rw [List.getElem?_eq_getElem hi]
      apply ih
      obtain ⟨j,hj,hlong⟩ := h
      rcases List.mem_cons.mp hj with rfl | hj
      · exact absurd hi (Nat.not_lt_of_le hlong)
      · exact ⟨j,hj,by simpa using hlong⟩
    · rw [List.getElem?_eq_none hi]
      exact ⟨_,rfl⟩

end Voice

section Placing

variable [Beats β]

theorem place_index {v w : Voice β} {m n : VoiceMemory β} {p : Placement β} {part : Option Char}
    {i : Nat} (htied : ∀ i ∈ m.tiedFrom, i < v.notes.length)
    (h : place v m p part = .ok (w,n,i)) :
    i = v.placeFor (v.soundingPitch p.written) m.tiedFrom := by
  unfold place at h
  dsimp only at h
  rw [Voice.tiedNote_eq htied, ok_bind] at h
  unfold Voice.placeFor
  split at h
  · next j hj =>
    obtain ⟨u,hu,h⟩ := exists_of_bind_ok h
    cases h
    rw [hj]
    rfl
  · next hnone =>
    cases h
    rw [hnone]
    rfl

end Placing

/-! ## States in range -/

namespace MusicState

section States

variable {s : MusicState β} {id : String} {v w : Voice β} {m : VoiceMemory β}

/-- The active voice is there, and so are the notes that are remembered of voices. -/
structure InRange [Beats β] (s : MusicState β) : Prop where
  active : s.voices.HasActive
  lastGroup : ∀ id, ∀ i ∈ (s.memory id).lastGroup, i < (s.voices.notesOf id).length
  tiedFrom : ∀ id, ∀ i ∈ (s.memory id).tiedFrom, i < (s.voices.notesOf id).length

end States

variable [Beats β] {s t : MusicState β} {id : String} {v w : Voice β} {m : VoiceMemory β}

theorem inRange_initial : (initial : MusicState β).InRange where
  active _ hid := absurd hid (Option.not_mem_none _)
  lastGroup _ _ hi := absurd hi List.not_mem_nil
  tiedFrom _ _ hi := absurd hi List.not_mem_nil

theorem InRange.setVoices (h : s.InRange) {voices : VoiceTable β} (hactive : voices.HasActive)
    (hnotes : ∀ id, voices.notesOf id = s.voices.notesOf id) : { s with voices }.InRange where
  active := hactive
  lastGroup id i hi := by
    rw [hnotes]
    exact h.lastGroup id i hi
  tiedFrom id i hi := by
    rw [hnotes]
    exact h.tiedFrom id i hi

theorem InRange.apply (h : s.InRange) (op : VoiceTable.Operation β) :
    { s with voices := s.voices.apply op }.InRange :=
  h.setVoices (h.active.apply op) (VoiceTable.notesOf_apply s.voices op)

theorem InRange.ensureActive (h : s.InRange) :
    { s with voices := s.voices.ensureActive }.InRange := h.apply .ensureActive

theorem InRange.advance (h : s.InRange) (beats : β) :
    { s with voices := s.voices.advance beats }.InRange := h.apply (.advance beats)

theorem InRange.step (h : s.InRange) (beats : β) : (s.step beats).InRange := by
  obtain ⟨hactive,hlast,htied⟩ := h.advance beats
  exact ⟨hactive,hlast,htied⟩

theorem InRange.setMemory (h : s.InRange)
    (hlast : ∀ i ∈ m.lastGroup, i < (s.voices.notesOf id).length)
    (htied : ∀ i ∈ m.tiedFrom, i < (s.voices.notesOf id).length) :
    (s.setMemory id m).InRange := by
  refine ⟨h.active,fun other => ?_,fun other => ?_⟩
  · by_cases hne : other = id
    · rw [hne, memory_setMemory]
      exact hlast
    · rw [memory_setMemory_of_ne s m hne]
      exact h.lastGroup other
  · by_cases hne : other = id
    · rw [hne, memory_setMemory]
      exact htied
    · rw [memory_setMemory_of_ne s m hne]
      exact h.tiedFrom other

/-- What is remembered besides places makes no difference. -/
theorem InRange.keepPlaces (h : s.InRange) (hlast : m.lastGroup = (s.memory id).lastGroup)
    (htied : m.tiedFrom = (s.memory id).tiedFrom) : (s.setMemory id m).InRange :=
  h.setMemory (hlast ▸ h.lastGroup id) (htied ▸ h.tiedFrom id)

theorem InRange.forget (h : s.InRange) (hlast : m.lastGroup = []) (htied : m.tiedFrom = []) :
    (s.setMemory id m).InRange := by
  refine h.setMemory ?_ ?_
  · simp [hlast]
  · simp [htied]

/-- A voice that has grown takes the place of the one that it was. -/
theorem InRange.setVoice (h : s.InRange) (hv : s.voices.find? w.id = some v)
    (hext : v.Extends w) : (s.setVoice w).InRange := by
  have hgrow (other : String) :
      (s.voices.notesOf other).length ≤ ((s.setVoice w).voices.notesOf other).length := by
    by_cases hne : other = w.id
    · rw [hne, VoiceTable.notesOf_of_find? hv]
      exact (VoiceTable.notesOf_replace hv).symm ▸ hext.notes
    · exact le_of_eq (congrArg List.length (VoiceTable.notesOf_replace_of_ne hne).symm)
  refine ⟨fun other hother => ?_,fun other i hi => ?_,fun other i hi => ?_⟩
  · exact (VoiceTable.contains_modify (fun _ => w) (fun _ _ => rfl) other).trans
      (h.active other hother)
  · exact Nat.lt_of_lt_of_le (h.lastGroup other i hi) (hgrow other)
  · exact Nat.lt_of_lt_of_le (h.tiedFrom other i hi) (hgrow other)

theorem InRange.endLine (h : s.InRange) : s.endLine.InRange := ⟨h.active,h.lastGroup,h.tiedFrom⟩

/-! ## What a token does to the line under way -/

/-- Whether a token is a note, rest or chord by itself, which counts for the open tuplets. -/
def counts (s : MusicState β) (token : Token) : Bool :=
  match token.kind with
  | .note =>
    s.graceGroup.isNone && s.chord.isNone && (WrittenNote.read? (β := β) token.text).isSome
  | .rest =>
    s.graceGroup.isNone && s.chord.isNone && (readLength? (β := β) (token.text.drop 1)).isSome
  | .chordEnd => s.chord.isSome && (readLength? (β := β) (token.text.drop 1)).isSome
  | _ => false

/-- The tuplet that a token opens. -/
def opened? (token : Token) (context : MusicContext β) : Option Tuplet :=
  match token.kind with
  | .tuplet => (Tuplet.read? token.text context.meter).filter (·.isOpen)
  | _ => none

/-- The tuplets that are open behind a token. -/
def tupletsBehind (s : MusicState β) (token : Token) (context : MusicContext β) : List Tuplet :=
  if s.counts token then Tuplet.countNote s.tuplets
  else (opened? token context).toList ++ s.tuplets

/-- Where a note is written that is read in the open chord: its voice, and its place there. -/
def chordNote? (s : MusicState β) (text : Text) (context : MusicContext β) :
    Option (String × Nat) :=
  match s.graceGroup, s.chord with
  | none, some _ => do
    let w ← WrittenNote.read? text
    let id := s.voices.noteVoice
    let v ← s.voices.ensureActive.find? id
    let (m,written) := (s.memory id).resolve w context.key
    some (id,v.placeFor (v.soundingPitch written) m.tiedFrom)
  | _, _ => none

/-- The notes of the chord that is open behind a token. -/
def chordBehind (s : MusicState β) (token : Token) (context : MusicContext β) :
    Option (List Nat) :=
  match token.kind with
  | .chordStart =>
    if s.chord.isNone && s.graceGroup.isNone then some [] else s.chord.map (·.notes)
  | .chordEnd => none
  | .note =>
    s.chord.map fun chord => chord.notes ++ (s.chordNote? token.text context).toList.map (·.2)
  | _ => s.chord.map (·.notes)

/-- A token is handled, whether it is accepted or rejected: the notes that are remembered stay in
range, and the tuplets and the notes of a chord that are open behind it are these. -/
def Handles (tuplets : List Tuplet) (notes : Option (List Nat))
    (r : Except Fault (Handled β)) : Prop :=
  ∃ t problem, r = .ok (t,problem) ∧ t.InRange ∧ t.tuplets = tuplets ∧
    t.chord.map (·.notes) = notes

/-- A token is handled and leaves the open tuplets and the open chord alone. -/
abbrev Passes (s : MusicState β) (r : Except Fault (Handled β)) : Prop :=
  Handles s.tuplets (s.chord.map (·.notes)) r

theorem handles_accept {tuplets : List Tuplet} {notes : Option (List Nat)} (h : t.InRange)
    (htuplets : t.tuplets = tuplets) (hnotes : t.chord.map (·.notes) = notes) :
    Handles tuplets notes t.accept :=
  ⟨t,none,rfl,h,htuplets,hnotes⟩

theorem handles_reject {tuplets : List Tuplet} {notes : Option (List Nat)} (h : t.InRange)
    (htuplets : t.tuplets = tuplets) (hnotes : t.chord.map (·.notes) = notes)
    (problem : MusicProblem) : Handles tuplets notes (t.reject problem) :=
  ⟨t,some problem,rfl,h,htuplets,hnotes⟩

theorem InRange.reject (h : s.InRange) (problem : MusicProblem) : Passes s (s.reject problem) :=
  handles_reject h rfl rfl problem

/-! ## Single tokens -/

theorem InRange.multiRest (h : s.InRange) (text : Text) (context : MusicContext β) :
    Passes s (s.multiRest text context) := by
  unfold MusicState.multiRest
  split
  · exact h.reject _
  · refine handles_accept (InRange.advance ?_ _) rfl rfl
    exact h.ensureActive.forget rfl rfl

theorem InRange.barLine (h : s.InRange) : Passes s s.barLine := by
  unfold MusicState.barLine
  split
  · exact handles_accept h rfl rfl
  · exact handles_accept (h.keepPlaces rfl rfl) rfl rfl

theorem InRange.openGrace (h : s.InRange) : Passes s s.openGrace := by
  unfold MusicState.openGrace
  split
  · exact h.reject _
  · exact handles_accept ⟨h.active,h.lastGroup,h.tiedFrom⟩ rfl rfl

theorem InRange.closeGrace (h : s.InRange) : Passes s s.closeGrace := by
  unfold MusicState.closeGrace
  split
  · exact h.reject _
  · obtain ⟨hactive,hlast,htied⟩ := h.ensureActive
    refine handles_accept (InRange.keepPlaces ?_ rfl rfl) rfl rfl
    exact ⟨hactive,hlast,htied⟩

theorem InRange.tie (h : s.InRange) : Passes s s.tie := by
  have hactive := h.ensureActive
  exact handles_accept (hactive.setMemory (hactive.lastGroup _) (hactive.lastGroup _)) rfl rfl

theorem InRange.decorate (h : s.InRange) (name : Text) : Passes s (s.decorate name) :=
  handles_accept ⟨h.active,h.lastGroup,h.tiedFrom⟩ rfl rfl

theorem InRange.namedDecoration (h : s.InRange) (text : Text) :
    Passes s (s.namedDecoration text) := by
  unfold MusicState.namedDecoration
  dsimp only
  split
  · exact handles_accept (h.ensureActive.keepPlaces rfl rfl) rfl rfl
  · split
    · exact handles_accept (h.ensureActive.keepPlaces rfl rfl) rfl rfl
    · exact handles_reject h.ensureActive rfl rfl _
  · exact h.decorate _

theorem InRange.brokenRhythm (h : s.InRange) (text : Text) : Passes s (s.brokenRhythm text) := by
  unfold MusicState.brokenRhythm
  split
  · exact h.reject _
  · next id hactive =>
    dsimp only
    split
    · exact h.reject _
    · obtain ⟨v,hv⟩ := VoiceTable.exists_find? (h.active id hactive)
      obtain rfl : v.id = id := VoiceTable.find?_id hv
      have hlast : ∀ i ∈ (s.memory v.id).lastGroup, i < v.notes.length :=
        VoiceTable.notesOf_of_find? hv ▸ h.lastGroup v.id
      obtain ⟨w,hw,-,hext⟩ := v.modifyNotes_spec (fun n => { n with
        duration := remaining
          (s.voices.cursor - (s.memory v.id).lastAdvance +
            (n.stop - (s.voices.cursor - (s.memory v.id).lastAdvance)) * (brokenFactors text).1)
          n.start }) hlast
      simp only [hv, hw, ok_bind]
      have hplaced := h.setVoice (hext.id ▸ hv) hext
      refine handles_accept (InRange.advance ?_ _) rfl rfl
      exact hplaced.keepPlaces rfl rfl

theorem InRange.openTuplet (h : s.InRange) (text : Text) (context : MusicContext β) :
    Handles (((Tuplet.read? text context.meter).filter (·.isOpen)).toList ++ s.tuplets)
      (s.chord.map (·.notes)) (s.openTuplet text context) := by
  unfold MusicState.openTuplet
  cases Tuplet.read? text context.meter with
  | none => exact h.reject _
  | some t =>
    by_cases hopen : t.isOpen = true
    · rw [Option.filter_some_pos hopen]
      simp only [if_pos hopen]
      exact handles_accept ⟨h.active,h.lastGroup,h.tiedFrom⟩ rfl rfl
    · rw [Option.filter_some_neg (by simpa using hopen)]
      simp only [if_neg hopen]
      exact handles_accept h rfl rfl

theorem InRange.openChord (h : s.InRange) :
    Handles s.tuplets (if s.chord.isNone && s.graceGroup.isNone then some []
      else s.chord.map (·.notes)) s.openChord := by
  unfold MusicState.openChord
  cases hchord : s.chord with
  | some chord => exact handles_reject h rfl (by simp [hchord]) _
  | none =>
    cases hgrace : s.graceGroup with
    | some group => exact handles_reject h rfl (by simp [hchord]) _
    | none =>
      obtain ⟨hactive,hlast,htied⟩ := h.ensureActive
      exact handles_accept (InRange.keepPlaces ⟨hactive,hlast,htied⟩ rfl rfl) rfl rfl

theorem InRange.rest (h : s.InRange) (text : Text) (context : MusicContext β) :
    Handles
      (if s.graceGroup.isNone && s.chord.isNone && (readLength? (β := β) (text.drop 1)).isSome
        then Tuplet.countNote s.tuplets else s.tuplets)
      (s.chord.map (·.notes)) (s.rest text context) := by
  unfold MusicState.rest
  cases hgrace : s.graceGroup with
  | some group => exact handles_reject h rfl rfl _
  | none =>
    cases hchord : s.chord with
    | some chord => exact handles_reject h rfl (by rw [hchord]) _
    | none =>
      cases readLength? (β := β) (text.drop 1) with
      | none => exact handles_reject h rfl (by rw [hchord]) _
      | some length =>
        obtain ⟨hactive,hlast,htied⟩ := h.ensureActive
        refine handles_accept (InRange.step ?_ _) rfl rfl
        exact InRange.forget ⟨hactive,hlast,htied⟩ rfl rfl

theorem InRange.addGrace (h : s.InRange) (group : List (Grace β)) (written : Int) (nominal : β) :
    Passes s (s.addGrace group written nominal) :=
  handles_accept ⟨h.active,h.lastGroup,h.tiedFrom⟩ rfl rfl

theorem InRange.addToChord (h : s.InRange) (hv : s.voices.find? v.id = some v)
    (chord : OpenChord β) (written : Int) (nominal : β) :
    Handles s.tuplets
      (some (chord.notes ++ [v.placeFor (v.soundingPitch written) (s.memory v.id).tiedFrom]))
      (s.addToChord chord v written nominal) := by
  have htied : ∀ i ∈ (s.memory v.id).tiedFrom, i < v.notes.length :=
    VoiceTable.notesOf_of_find? hv ▸ h.tiedFrom v.id
  obtain ⟨w,m,i,hw,-,hext,hi,hlast,hkept⟩ := place_spec v (s.memory v.id)
    ⟨written,chord.start,nominal * chord.factor,s.decorations ++ chord.decorations⟩ s.part htied
  obtain rfl := place_index htied hw
  simp only [MusicState.addToChord, hw, ok_bind]
  have hplaced := h.setVoice (hext.id ▸ hv) hext
  have hremembered : ((s.setVoice w).setMemory w.id m).InRange :=
    hplaced.keepPlaces (hext.id ▸ hlast) (hext.id ▸ hkept)
  exact handles_accept ⟨hremembered.active,hremembered.lastGroup,hremembered.tiedFrom⟩ rfl rfl

theorem InRange.addSingle (h : s.InRange) (hv : s.voices.find? v.id = some v)
    (hchord : s.chord = none) (written : Int) (nominal : β) :
    Handles (Tuplet.countNote s.tuplets) none (s.addSingle v written nominal) := by
  unfold MusicState.addSingle
  dsimp only
  generalize nominal * (s.memory v.id).brokenNext.getD 1.0 * Tuplet.scaleAll s.tuplets = advance
  obtain ⟨u,borrowed,hu,-,hvu⟩ := placeGraces_spec v (s.memory v.id).velocity
    (s.memory v.id).graces s.voices.cursor advance s.part
  have htied : ∀ i ∈ (s.memory v.id).tiedFrom, i < u.notes.length := fun i hi =>
    Nat.lt_of_lt_of_le (VoiceTable.notesOf_of_find? hv ▸ h.tiedFrom v.id i hi) hvu.notes
  obtain ⟨w,m,i,hw,-,huw,hi,-,-⟩ := place_spec u
    { s.memory v.id with brokenNext := none, graces := [] }
    ⟨written,s.voices.cursor + borrowed,advance - borrowed,s.decorations⟩ s.part htied
  simp only [hu, hw, ok_bind]
  have hext := hvu.trans huw
  have hplaced := h.setVoice (hext.id ▸ hv) hext
  have hnotes : (s.setVoice w).voices.notesOf w.id = w.notes :=
    VoiceTable.notesOf_replace (hext.id ▸ hv)
  have hremembered : ((s.setVoice w).setMemory w.id
      { m with tiedFrom := [], lastGroup := [i], lastAdvance := advance }).InRange :=
    hplaced.setMemory (hnotes ▸ List.forall_mem_singleton.mpr hi)
      fun _ hj => absurd hj List.not_mem_nil
  obtain ⟨hactive,hlast,htied⟩ := hremembered.step advance
  exact handles_accept ⟨hactive,hlast,htied⟩ rfl (congrArg _ hchord)

/-- The state behind the accidental of a note, which is remembered. -/
def resolved (s : MusicState β) (w : WrittenNote β) (key : Key) : MusicState β :=
  MusicState.setMemory { s with voices := s.voices.ensureActive } s.voices.noteVoice
    ((s.memory s.voices.noteVoice).resolve w key).1

/-- A note that is read waits for its principal, or goes to the open chord, or is placed by
itself. -/
theorem note_eq {w : WrittenNote β} {text : Text} (context : MusicContext β)
    (hread : WrittenNote.read? text = some w)
    (hv : s.voices.ensureActive.find? s.voices.noteVoice = some v) :
    s.note text context =
      let t := s.resolved w context.key
      let written := ((s.memory s.voices.noteVoice).resolve w context.key).2
      let nominal := context.beats w.length
      match s.graceGroup, s.chord with
      | some group, _ => t.addGrace group written nominal
      | none, some chord => t.addToChord chord v written nominal
      | none, none => t.addSingle v written nominal := by
  obtain ⟨voices,memories,tuplets,graceGroup,chord,decorations,part⟩ := s
  simp only [note, hread, MusicState.setMemory]
  cases graceGroup with
  | some group => rfl
  | none =>
    rw [hv]
    cases chord <;> rfl

theorem InRange.resolved (h : s.InRange) (w : WrittenNote β) (key : Key) :
    (s.resolved w key).InRange := by
  obtain ⟨hlast,htied⟩ := resolve_places (s.memory s.voices.noteVoice) w key
  exact h.ensureActive.keepPlaces hlast htied

theorem chordNote?_eq_none {text : Text} (context : MusicContext β)
    (hread : WrittenNote.read? (β := β) text = none) : s.chordNote? text context = none := by
  unfold chordNote?
  rw [hread]
  split <;> rfl

theorem chordNote?_eq_some {w : WrittenNote β} {text : Text} (context : MusicContext β)
    {chord : OpenChord β} (hgrace : s.graceGroup = none) (hchord : s.chord = some chord)
    (hread : WrittenNote.read? text = some w)
    (hv : s.voices.ensureActive.find? s.voices.noteVoice = some v) :
    s.chordNote? text context = some (s.voices.noteVoice,
      v.placeFor (v.soundingPitch ((s.memory s.voices.noteVoice).resolve w context.key).2)
        ((s.memory s.voices.noteVoice).resolve w context.key).1.tiedFrom) := by
  unfold chordNote?
  simp only [hgrace, hchord, hread, hv, Option.bind_eq_bind, Option.bind_some]

theorem InRange.note (h : s.InRange) (text : Text) (context : MusicContext β) :
    Handles
      (if s.graceGroup.isNone && s.chord.isNone && (WrittenNote.read? (β := β) text).isSome
        then Tuplet.countNote s.tuplets else s.tuplets)
      (s.chord.map fun chord => chord.notes ++ (s.chordNote? text context).toList.map (·.2))
      (s.note text context) := by
  cases hread : WrittenNote.read? (β := β) text with
  | none =>
    rw [MusicState.note, hread, chordNote?_eq_none context hread]
    exact handles_reject h (by simp) (by simp) _
  | some w =>
    obtain ⟨v,hv,hid⟩ := h.active.exists_noteVoice
    have hresolved := h.resolved w context.key
    have hv' : (s.resolved w context.key).voices.find? v.id = some v := hid ▸ hv
    rw [note_eq context hread hv]
    cases hgrace : s.graceGroup with
    | some group =>
      simp only [chordNote?, hgrace, Option.toList_none, List.map_nil, List.append_nil]
      exact hresolved.addGrace group _ _
    | none =>
      cases hchord : s.chord with
      | none => exact hresolved.addSingle hv' hchord _ _
      | some chord =>
        rw [chordNote?_eq_some context hgrace hchord hread hv]
        have hadded := hresolved.addToChord hv' chord
          ((s.memory s.voices.noteVoice).resolve w context.key).2 (context.beats w.length)
        rw [hid, MusicState.resolved, memory_setMemory] at hadded
        exact hadded

/-- A chord is closed in a voice that does not have all of its notes. -/
def ClosesElsewhere (s : MusicState β) (token : Token) : Prop :=
  token.kind = .chordEnd ∧ (readLength? (β := β) (token.text.drop 1)).isSome ∧
    ∃ chord v, s.chord = some chord ∧
      s.voices.ensureActive.find? s.voices.noteVoice = some v ∧
      ∃ i ∈ chord.notes, v.notes.length ≤ i

theorem finishChord_eq_error {chord : OpenChord β} (h : ∃ i ∈ chord.notes, v.notes.length ≤ i)
    (velocity : Int) (multiplier advance : β) (part : Option Char) :
    ∃ fault, finishChord v velocity chord multiplier advance part = .error fault := by
  obtain ⟨fault,hfault⟩ :=
    v.modifyNotes_eq_error (fun n => { n with duration := n.duration * multiplier }) h
  exact ⟨fault,bind_eq_error_iff.mpr (.inl hfault)⟩

/-- The state behind a chord that was finished in the voice that notes go to. -/
def closed (s : MusicState β) (chord : OpenChord β) (advance : β) (w : Voice β) :
    MusicState β :=
  let id := s.voices.noteVoice
  let m := { s.memory id with tiedFrom := [], lastGroup := chord.notes, lastAdvance := advance }
  ((MusicState.setVoice { s with chord := none, voices := s.voices.ensureActive } w).setMemory
    id m).step advance

theorem closeChord_eq {chord : OpenChord β} {multiplier : β} {text : Text}
    (hchord : s.chord = some chord) (hlength : readLength? (text.drop 1) = some multiplier)
    (hv : s.voices.ensureActive.find? s.voices.noteVoice = some v) :
    s.closeChord text =
      finishChord v (s.memory s.voices.noteVoice).velocity chord multiplier
        (chord.firstAdvance.getD 0.0 * multiplier) s.part >>= fun w =>
          (s.closed chord (chord.firstAdvance.getD 0.0 * multiplier) w).accept := by
  unfold MusicState.closeChord
  simp only [hchord, hlength, hv, ok_bind]
  rfl

/-- A chord is closed where the voice that notes go to has all of its notes. -/
theorem closeChord_ok {chord : OpenChord β} {multiplier : β} {text : Text}
    (hchord : s.chord = some chord) (hlength : readLength? (text.drop 1) = some multiplier)
    (hv : s.voices.ensureActive.find? s.voices.noteVoice = some v)
    (hnotes : ∀ i ∈ chord.notes, i < v.notes.length) :
    ∃ w, v.Extends w ∧ s.closeChord text =
      (s.closed chord (chord.firstAdvance.getD 0.0 * multiplier) w).accept := by
  obtain ⟨w,hw,-,hext⟩ := finishChord_spec v (s.memory s.voices.noteVoice).velocity chord
    multiplier (chord.firstAdvance.getD 0.0 * multiplier) s.part hnotes
  exact ⟨w,hext,by rw [closeChord_eq hchord hlength hv, hw, ok_bind]⟩

theorem InRange.closeChord (h : s.InRange) (text : Text)
    (hnotes : ∀ chord v, s.chord = some chord →
      s.voices.ensureActive.find? s.voices.noteVoice = some v →
      (readLength? (β := β) (text.drop 1)).isSome → ∀ i ∈ chord.notes, i < v.notes.length) :
    Handles
      (if s.chord.isSome && (readLength? (β := β) (text.drop 1)).isSome
        then Tuplet.countNote s.tuplets else s.tuplets)
      none (s.closeChord text) := by
  cases hchord : s.chord with
  | none =>
    rw [MusicState.closeChord, hchord]
    exact handles_reject h rfl (congrArg _ hchord) _
  | some chord =>
    cases hlength : readLength? (β := β) (text.drop 1) with
    | none =>
      simp only [MusicState.closeChord, hchord, hlength]
      have hopen : MusicState.InRange { s with chord := none } := ⟨h.active,h.lastGroup,h.tiedFrom⟩
      exact handles_reject hopen rfl rfl _
    | some multiplier =>
      obtain ⟨v,hv,hid⟩ := h.active.exists_noteVoice
      have hplaces := hnotes chord v hchord hv (hlength ▸ rfl)
      obtain ⟨w,hext,hclosed⟩ := closeChord_ok hchord hlength hv hplaces
      have hwid : w.id = s.voices.noteVoice := hext.id.trans hid
      rw [hclosed]
      have hopen : MusicState.InRange { s with chord := none, voices := s.voices.ensureActive } := by
        obtain ⟨hactive,hlast,htied⟩ := h.ensureActive
        exact ⟨hactive,hlast,htied⟩
      have hplaced := hopen.setVoice (hwid ▸ hv) hext
      have hfound : (s.voices.ensureActive.modify w.id fun _ => w).notesOf s.voices.noteVoice =
          w.notes :=
        hwid ▸ VoiceTable.notesOf_replace (hwid ▸ hv)
      refine handles_accept (InRange.step (hplaced.setMemory ?_ ?_) _) rfl rfl
      · intro i hi
        exact hfound ▸ Nat.lt_of_lt_of_le (hplaces i hi) hext.notes
      · exact fun _ hi => absurd hi List.not_mem_nil

theorem closeChord_eq_error {chord : OpenChord β} {text : Text} (hchord : s.chord = some chord)
    (hlength : (readLength? (β := β) (text.drop 1)).isSome)
    (hv : s.voices.ensureActive.find? s.voices.noteVoice = some v)
    (hlong : ∃ i ∈ chord.notes, v.notes.length ≤ i) :
    ∃ fault, s.closeChord text = .error fault := by
  obtain ⟨multiplier,hlength⟩ := Option.isSome_iff_exists.mp hlength
  obtain ⟨fault,hfault⟩ := finishChord_eq_error hlong (s.memory s.voices.noteVoice).velocity
    multiplier (chord.firstAdvance.getD 0.0 * multiplier) s.part
  rw [closeChord_eq hchord hlength hv, hfault]
  exact ⟨fault,rfl⟩

/-! ## Whole runs -/

/-- Each token is handled unless it closes a chord in a voice that does not have its notes. -/
theorem InRange.handle (h : s.InRange) {token : Token} (hclose : ¬ s.ClosesElsewhere token)
    (context : MusicContext β) :
    Handles (s.tupletsBehind token context) (s.chordBehind token context)
      (s.handle token context) := by
  obtain ⟨kind,text,line,column,properties⟩ := token
  cases kind with
  | note => exact h.note text context
  | rest => exact h.rest text context
  | multiRest => exact h.multiRest text context
  | bar | repeatStart | repeatEnd | repeatBoth | ending => exact h.barLine
  | chordStart => exact h.openChord
  | chordEnd =>
    refine h.closeChord text fun chord v hchord hv hlength i hi => ?_
    by_contra hlong
    exact hclose ⟨rfl,hlength,chord,v,hchord,hv,i,hi,Nat.le_of_not_lt hlong⟩
  | graceStart => exact h.openGrace
  | graceEnd => exact h.closeGrace
  | tuplet => exact h.openTuplet text context
  | tie => exact h.tie
  | brokenRhythm => exact h.brokenRhythm text
  | decoration => exact h.decorate text
  | extendedDecoration => exact h.namedDecoration text
  | unknown => exact h.reject _
  | field | inlineField | directive | comment | slurStart | slurEnd | chordSymbol | continuation
  | space => exact handles_accept h rfl rfl

theorem handle_eq_error {token : Token} (h : s.ClosesElsewhere token) (context : MusicContext β) :
    ∃ fault, s.handle token context = .error fault := by
  obtain ⟨kind,text,line,column,properties⟩ := token
  obtain ⟨hkind,hlength,chord,v,hchord,hv,hlong⟩ := h
  obtain rfl : kind = .chordEnd := hkind
  exact closeChord_eq_error hchord hlength hv hlong

theorem InRange.handle_eq_error_iff (h : s.InRange) (token : Token) (context : MusicContext β) :
    (∃ fault, s.handle token context = .error fault) ↔ s.ClosesElsewhere token := by
  refine ⟨fun ⟨fault,hfault⟩ => ?_,fun hclose => handle_eq_error hclose context⟩
  by_contra hclose
  obtain ⟨t,problem,hok,-⟩ := h.handle hclose context
  cases hfault.symm.trans hok

/-- What a token that is handled leads to. -/
theorem InRange.of_handle (h : s.InRange) {token : Token} {context : MusicContext β}
    {problem : Option MusicProblem} (hok : s.handle token context = .ok (t,problem)) :
    t.InRange ∧ t.tuplets = s.tupletsBehind token context ∧
      t.chord.map (·.notes) = s.chordBehind token context := by
  have hclose : ¬ s.ClosesElsewhere token := by
    intro hclose
    obtain ⟨fault,hfault⟩ := handle_eq_error hclose context
    cases hok.symm.trans hfault
  obtain ⟨u,other,hu,hrange,htuplets,hnotes⟩ := h.handle hclose context
  cases hok.symm.trans hu
  exact ⟨hrange,htuplets,hnotes⟩

theorem InRange.move (h : s.InRange) {m : MusicMove β} (hm : s.move m = .ok t) : t.InRange := by
  cases m with
  | token token context =>
    obtain ⟨⟨u,problem⟩,hu,rfl⟩ := exists_of_map_ok hm
    exact (h.of_handle hu).1
  | endLine => exact Except.ok.inj hm ▸ h.endLine
  | startPart label =>
    obtain rfl := Except.ok.inj hm
    exact ⟨h.active,h.lastGroup,h.tiedFrom⟩
  | voices operation => exact Except.ok.inj hm ▸ h.apply operation

theorem InRange.run (h : s.InRange) {moves : List (MusicMove β)} (hrun : s.run moves = .ok t) :
    t.InRange :=
  run_induction h (fun _ _ _ hs hm => hs.move hm) hrun

end MusicState
end AbcTune
