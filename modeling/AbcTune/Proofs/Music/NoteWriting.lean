import AbcTune.Proofs.Music.ChordPlaces

/-! # Writing a note

A note that is read goes into the open grace group, into the open chord, or by itself among the
notes of the voice that notes go to, where it sounds at the pitch that its voice makes of the
written one. Its own accidental is remembered, and nothing else changes the accidentals.
-/
namespace AbcTune

variable {β : Type}

theorem Voice.exists_of_tiedNote {v : Voice β} {pitch i : Nat} {places : List Nat}
    (h : v.tiedNote pitch places = .ok (some i)) : ∃ n, v.notes[i]? = some n ∧ n.pitch = pitch := by
  induction places with
  | nil => cases h
  | cons j rest ih =>
    unfold tiedNote at h
    split at h
    · cases h
    · next n hn =>
      split at h
      · next hpitch =>
        obtain rfl : j = i := Option.some.inj (Except.ok.inj h)
        exact ⟨n,hn,hpitch⟩
      · exact ih h

variable [Beats β]

/-- A note that is placed stands at its place and sounds at its pitch, whether or not it is tied. -/
theorem place_ok {v w : Voice β} {m m' : VoiceMemory β} {p : Placement β} {part : Option Char}
    {i : Nat} (h : place v m p part = .ok (w,m',i)) :
    v.Extends w ∧ m'.accidentals = m.accidentals ∧
      ∃ n, w.notes[i]? = some n ∧ n.pitch = v.soundingPitch p.written := by
  unfold place at h
  obtain ⟨tied,htied,h⟩ := exists_of_bind_ok h
  split at h
  · obtain ⟨u,hu,h⟩ := exists_of_bind_ok h
    cases h
    obtain ⟨n,hn,hpitch⟩ := Voice.exists_of_tiedNote htied
    obtain ⟨note,hnote,rfl⟩ := Voice.modifyNote_ok hu
    obtain rfl : note = n := Option.some.inj (hnote.symm.trans hn)
    have hi := (List.getElem?_eq_some_iff.mp hn).1
    exact ⟨⟨rfl,by simp⟩,rfl,_,List.getElem?_set_self hi,hpitch⟩
  · cases h
    exact ⟨v.extends_addNote _,rfl,_,List.getElem?_concat_length,rfl⟩

namespace MusicState

variable {s t : MusicState β} {v : Voice β} {problem : Option MusicProblem} {written : Int}
  {nominal : β}

/-! ## Accidentals that stay -/

/-- The accidentals that are remembered of all voices are the same in two states. -/
def SameAccidentals (s t : MusicState β) : Prop :=
  ∀ id, (t.memory id).accidentals = (s.memory id).accidentals

theorem sameAccidentals_setMemory {id : String} {m : VoiceMemory β}
    (h : m.accidentals = (s.memory id).accidentals) : SameAccidentals s (s.setMemory id m) := by
  intro other
  by_cases hne : other = id
  · rw [hne, memory_setMemory, h]
  · rw [memory_setMemory_of_ne s m hne]

/-! ## Notes -/

/-- A note of a written pitch stands at a place of a voice, and sounds as the voice makes it. -/
def SoundsAt (t : MusicState β) (v : Voice β) (i : Nat) (written : Int) : Prop :=
  ∃ n, (t.voices.notesOf v.id)[i]? = some n ∧ n.pitch = v.soundingPitch written

/-- A note has been added to the open chord, at a place of its voice. -/
structure AddsToChord (s t : MusicState β) (v : Voice β) (chord : OpenChord β) (written : Int)
    (nominal : β) (i : Nat) : Prop where
  sounds : t.SoundsAt v i written
  accidentals : SameAccidentals s t
  chord : t.chord = some { chord with
    notes := chord.notes ++ [i]
    firstAdvance := chord.firstAdvance <|> some (nominal * chord.factor) }
  active : t.voices.active = s.voices.active
  notes : v.notes.length ≤ (t.voices.notesOf v.id).length
  tuplets : t.tuplets = s.tuplets
  graceGroup : t.graceGroup = s.graceGroup

/-- A note has been added by itself, at a place of its voice. -/
structure AddsSingle (s t : MusicState β) (v : Voice β) (written : Int) (nominal : β) (i : Nat) :
    Prop where
  sounds : t.SoundsAt v i written
  accidentals : SameAccidentals s t
  lastGroup : (t.memory v.id).lastGroup = [i]
  lastAdvance : (t.memory v.id).lastAdvance =
    nominal * (s.memory v.id).brokenNext.getD 1.0 * Tuplet.scaleAll s.tuplets
  tuplets : t.tuplets = Tuplet.countNote s.tuplets
  chord : t.chord = s.chord
  graceGroup : t.graceGroup = s.graceGroup

theorem addToChord_ok {chord : OpenChord β} (hv : s.voices.find? v.id = some v)
    (hok : s.addToChord chord v written nominal = .ok (t,problem)) :
    problem = none ∧ ∃ i, AddsToChord s t v chord written nominal i := by
  unfold addToChord at hok
  obtain ⟨⟨w,m,i⟩,hplaced,hok⟩ := exists_of_bind_ok hok
  cases hok
  obtain ⟨hext,hkept,n,hn,hpitch⟩ := place_ok hplaced
  have hid := hext.id
  have hnotes : (s.voices.modify w.id fun _ => w).notesOf v.id = w.notes :=
    hid ▸ VoiceTable.notesOf_replace (hid ▸ hv)
  refine ⟨rfl,i,?_⟩
  exact {
    sounds := ⟨n,(congrArg (·[i]?) hnotes).trans hn,hpitch⟩
    accidentals := sameAccidentals_setMemory (hid ▸ hkept)
    chord := rfl
    active := rfl
    notes := (congrArg List.length hnotes).symm ▸ hext.notes
    tuplets := rfl
    graceGroup := rfl }

theorem addSingle_ok (hv : s.voices.find? v.id = some v)
    (hok : s.addSingle v written nominal = .ok (t,problem)) :
    problem = none ∧ ∃ i, AddsSingle s t v written nominal i := by
  unfold addSingle at hok
  dsimp only at hok
  generalize hadvance :
    nominal * (s.memory v.id).brokenNext.getD 1.0 * Tuplet.scaleAll s.tuplets = advance at hok
  obtain ⟨more,borrowed,hgraces⟩ := placeGraces_eq v (s.memory v.id).velocity
    (s.memory v.id).graces s.voices.cursor advance s.part
  rw [hgraces] at hok
  obtain ⟨⟨w,m,i⟩,hplaced,hok⟩ := exists_of_bind_ok hok
  cases hok
  obtain ⟨hext,hkept,n,hn,hpitch⟩ := place_ok hplaced
  have hid : w.id = v.id := hext.id
  have hnotes : (s.voices.modify w.id fun _ => w).notesOf v.id = w.notes :=
    hid ▸ VoiceTable.notesOf_replace (hid ▸ hv)
  let behind : VoiceMemory β := { m with tiedFrom := [], lastGroup := [i], lastAdvance := advance }
  have hmemory : (s.setMemory w.id behind).memory v.id = behind :=
    hid ▸ memory_setMemory s w.id behind
  refine ⟨rfl,i,?_⟩
  exact {
    sounds := ⟨n,(congrArg (·[i]?) hnotes).trans hn,hpitch⟩
    accidentals := sameAccidentals_setMemory (hid ▸ hkept)
    lastGroup := congrArg (·.lastGroup) hmemory
    lastAdvance := (congrArg (·.lastAdvance) hmemory).trans hadvance.symm
    tuplets := rfl
    chord := rfl
    graceGroup := rfl }

/-! ## Notes that are read -/

theorem handle_note {token : Token} (h : token.kind = .note) (context : MusicContext β) :
    s.handle token context = s.note token.text context := by
  rw [MusicState.handle, h]

section Reading

variable (h : s.InRange) {text : Text} {w : WrittenNote β} (hread : WrittenNote.read? text = some w)
  (context : MusicContext β)

include h hread

theorem InRange.note_inGrace {group : List (Grace β)} (hgrace : s.graceGroup = some group) :
    s.note text context = (s.resolved w context.key).addGrace group
      ((s.memory s.voices.noteVoice).resolve w context.key).2 (context.beats w.length) := by
  obtain ⟨v,hv,-⟩ := h.active.exists_noteVoice
  have hnote := note_eq context hread hv
  simp only [hgrace] at hnote
  exact hnote

theorem InRange.note_inChord {chord : OpenChord β} (hgrace : s.graceGroup = none)
    (hchord : s.chord = some chord) :
    ∃ t v i, s.note text context = .ok (t,none) ∧
      s.voices.ensureActive.find? s.voices.noteVoice = some v ∧
      AddsToChord (s.resolved w context.key) t v chord
        ((s.memory s.voices.noteVoice).resolve w context.key).2 (context.beats w.length) i := by
  obtain ⟨v,hv,hid⟩ := h.active.exists_noteVoice
  have hnote := note_eq context hread hv
  simp only [hgrace, hchord] at hnote
  obtain ⟨t,problem,hok,-⟩ := h.note text context
  obtain ⟨rfl,i,hadds⟩ := addToChord_ok (hid ▸ hv) (hnote.symm.trans hok)
  exact ⟨t,v,i,hok,hv,hadds⟩

theorem InRange.note_single (hgrace : s.graceGroup = none) (hchord : s.chord = none) :
    ∃ t v i, s.note text context = .ok (t,none) ∧
      s.voices.ensureActive.find? s.voices.noteVoice = some v ∧
      AddsSingle (s.resolved w context.key) t v
        ((s.memory s.voices.noteVoice).resolve w context.key).2 (context.beats w.length) i := by
  obtain ⟨v,hv,hid⟩ := h.active.exists_noteVoice
  have hnote := note_eq context hread hv
  simp only [hgrace, hchord] at hnote
  obtain ⟨t,problem,hok,-⟩ := h.note text context
  obtain ⟨rfl,i,hadds⟩ := addSingle_ok (hid ▸ hv) (hnote.symm.trans hok)
  exact ⟨t,v,i,hok,hv,hadds⟩

end Reading

/-- A note of a written pitch has been read between two states. It waits at the end of the open
grace group; or it stands at a place of the voice that notes go to, which the open chord has got, or
else is that of the last note. -/
def Writes (s t : MusicState β) (written : Int) : Prop :=
  match s.graceGroup with
  | some group => ∃ beats, t.graceGroup = some (group ++ [⟨written,beats⟩])
  | none => ∃ v i, s.voices.ensureActive.find? s.voices.noteVoice = some v ∧
      t.SoundsAt v i written ∧
      match s.chord with
      | some chord => t.chord.map (·.notes) = some (chord.notes ++ [i])
      | none => (t.memory s.voices.noteVoice).lastGroup = [i]

/-- Whatever is open, a note that can be read is written at the pitch of its accidental. -/
theorem InRange.note_ok (h : s.InRange) {text : Text} {w : WrittenNote β}
    (hread : WrittenNote.read? text = some w) (context : MusicContext β) :
    ∃ t, s.note text context = .ok (t,none) ∧ SameAccidentals (s.resolved w context.key) t ∧
      s.Writes t ((s.memory s.voices.noteVoice).resolve w context.key).2 := by
  unfold Writes
  cases hgrace : s.graceGroup with
  | some group => exact ⟨_,h.note_inGrace hread context hgrace,fun _ => rfl,_,rfl⟩
  | none =>
    cases hchord : s.chord with
    | some chord =>
      obtain ⟨t,v,i,hok,hv,hadds⟩ := h.note_inChord hread context hgrace hchord
      exact ⟨t,hok,hadds.accidentals,v,i,hv,hadds.sounds,congrArg _ hadds.chord⟩
    | none =>
      obtain ⟨t,v,i,hok,hv,hadds⟩ := h.note_single hread context hgrace hchord
      have hid := VoiceTable.find?_id hv
      exact ⟨t,hok,hadds.accidentals,v,i,hv,hadds.sounds,hid ▸ hadds.lastGroup⟩

end MusicState
end AbcTune
