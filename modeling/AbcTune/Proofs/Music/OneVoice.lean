import Mathlib.Logic.Function.Iterate
import AbcTune.Music.Reading
import AbcTune.Proofs.Voice.Solo

/-! # Music of one voice

While a voice is active, a token changes what belongs to that voice and to the line under way, and
nothing of the other voices. It does to the whole state what it does to the state as that voice
sees it, and the notes that are to be changed later are always there.
-/
namespace AbcTune

variable {β : Type}

/-! ## Placing notes -/

namespace Voice

variable {v w : Voice β} {f : Note β → Note β} {places : List Nat}

theorem modifyNote_ok {i : Nat} (h : v.modifyNote f i = .ok w) :
    ∃ note, v.notes[i]? = some note ∧ w = { v with notes := v.notes.set i (f note) } := by
  unfold modifyNote at h
  split at h
  · cases h
  · next note hnote => exact ⟨note,hnote,(Except.ok.inj h).symm⟩

/-- A note is changed once for each time that its place is given. -/
theorem modifyNotes_ok (h : v.modifyNotes f places = .ok w) :
    ∃ notes, w = { v with notes } ∧ ∀ j, notes[j]? = v.notes[j]?.map (f^[places.count j]) := by
  induction places generalizing v with
  | nil =>
    obtain rfl := Except.ok.inj h
    exact ⟨v.notes,rfl,fun j => by simp⟩
  | cons i rest ih =>
    unfold modifyNotes at h
    split at h
    · cases h
    · next u hu =>
      obtain ⟨note,hnote,rfl⟩ := modifyNote_ok hu
      obtain ⟨notes,rfl,hnotes⟩ := ih h
      refine ⟨notes,rfl,fun j => ?_⟩
      rw [hnotes, List.getElem?_set]
      by_cases hij : i = j
      · subst hij
        have hi := (List.getElem?_eq_some_iff.mp hnote).1
        rw [if_pos rfl, if_pos hi, hnote, List.count_cons_self, Option.map_some, Option.map_some,
          Function.iterate_succ_apply]
      · rw [if_neg hij, List.count_cons_of_ne hij]

/-- A voice after notes were added or changed. -/
structure Extends (v w : Voice β) : Prop where
  id : w.id = v.id
  notes : v.notes.length ≤ w.notes.length

theorem Extends.refl (v : Voice β) : Extends v v := ⟨rfl,Nat.le_refl _⟩

theorem Extends.trans {u w : Voice β} (h : Extends u v) (h' : Extends v w) : Extends u w :=
  ⟨h'.id.trans h.id,Nat.le_trans h.notes h'.notes⟩

theorem extends_addNote (v : Voice β) (n : Note β) : Extends v (v.addNote n) :=
  ⟨rfl,by simp [addNote]⟩

variable [Beats β]

theorem tiedNote_spec (pitch : Nat) (places : List Nat) (h : ∀ i ∈ places, i < v.notes.length) :
    ∃ found, v.tiedNote pitch places = .ok found ∧ v.settle.tiedNote pitch places = .ok found ∧
      ∀ i ∈ found, i < v.notes.length := by
  induction places with
  | nil => exact ⟨none,rfl,rfl,by simp⟩
  | cons i rest ih =>
    have hi : i < v.notes.length := h i List.mem_cons_self
    obtain ⟨found,hv,hsettle,hfound⟩ := ih fun j hj => h j (List.mem_cons_of_mem _ hj)
    have hnote : v.notes[i]? = some v.notes[i] := List.getElem?_eq_getElem hi
    simp only [tiedNote, settle, hnote]
    by_cases hpitch : v.notes[i].pitch = pitch
    · exact ⟨some i,if_pos hpitch,if_pos hpitch,by simpa using hi⟩
    · exact ⟨found,(if_neg hpitch).trans hv,(if_neg hpitch).trans hsettle,hfound⟩

theorem modifyNote_spec (f : Note β → Note β) {i : Nat} (h : i < v.notes.length) :
    ∃ w, v.modifyNote f i = .ok w ∧ v.settle.modifyNote f i = .ok w.settle ∧ Extends v w := by
  have hnote : v.notes[i]? = some v.notes[i] := List.getElem?_eq_getElem h
  refine ⟨{ v with notes := v.notes.set i (f v.notes[i]) },?_,?_,rfl,by simp⟩
  · simp only [modifyNote, hnote]
  · simp only [modifyNote, settle, hnote]

theorem modifyNotes_spec (f : Note β → Note β) {places : List Nat}
    (h : ∀ i ∈ places, i < v.notes.length) :
    ∃ w, v.modifyNotes f places = .ok w ∧ v.settle.modifyNotes f places = .ok w.settle ∧
      Extends v w := by
  induction places generalizing v with
  | nil => exact ⟨v,rfl,rfl,.refl v⟩
  | cons i rest ih =>
    obtain ⟨u,hu,husettle,hvu⟩ := modifyNote_spec f (h i List.mem_cons_self)
    have hrest : ∀ j ∈ rest, j < u.notes.length := fun j hj =>
      Nat.lt_of_lt_of_le (h j (List.mem_cons_of_mem _ hj)) hvu.notes
    obtain ⟨w,hw,hwsettle,huw⟩ := ih hrest
    refine ⟨w,?_,?_,hvu.trans huw⟩
    · rw [modifyNotes, hu]
      exact hw
    · rw [modifyNotes, husettle]
      exact hwsettle

end Voice

/-- An accidental of a note does not touch the notes that were placed. -/
theorem resolve_places (m : VoiceMemory β) (written : WrittenNote β) (key : Key) :
    (m.resolve written key).1.lastGroup = m.lastGroup ∧
      (m.resolve written key).1.tiedFrom = m.tiedFrom := by
  unfold VoiceMemory.resolve
  cases written.accidental with
  | none => exact ⟨rfl,rfl⟩
  | some a => exact ⟨rfl,rfl⟩

theorem resolve_graces (m : VoiceMemory β) (written : WrittenNote β) (key : Key) :
    (m.resolve written key).1.graces = m.graces := by
  unfold VoiceMemory.resolve
  cases written.accidental with
  | none => rfl
  | some a => rfl

variable [Beats β]

theorem addGraces_spec (v : Voice β) (velocity : Int) (factor : β) (part : Option Char)
    (graces : List (Grace β)) (time : β) :
    ∃ w stop, addGraces v velocity factor part graces time = (w,stop) ∧
      addGraces v.settle velocity factor part graces time = (w.settle,stop) ∧ v.Extends w := by
  induction graces generalizing v time with
  | nil => exact ⟨v,time,rfl,rfl,.refl v⟩
  | cons g rest ih =>
    obtain ⟨w,stop,hw,hsettle,hext⟩ := ih (v.addNote _) _
    exact ⟨w,stop,hw,hsettle,(v.extends_addNote _).trans hext⟩

theorem placeGraces_spec (v : Voice β) (velocity : Int) (graces : List (Grace β))
    (start principal : β) (part : Option Char) :
    ∃ w borrowed, placeGraces v velocity graces start principal part = (w,borrowed) ∧
      placeGraces v.settle velocity graces start principal part = (w.settle,borrowed) ∧
      v.Extends w := by
  unfold placeGraces
  by_cases htotal : Beats.sum (graces.map (·.beats)) ≤ 0.0
  · exact ⟨v,0.0,if_pos htotal,if_pos htotal,.refl v⟩
  · simp only [if_neg htotal]
    generalize (if principal * mostGraceShare < Beats.sum (graces.map (·.beats)) then
      principal * mostGraceShare / Beats.sum (graces.map (·.beats)) else 1.0) = factor
    obtain ⟨w,stop,hw,hsettle,hext⟩ := addGraces_spec v velocity factor part graces start
    exact ⟨w,stop - start,by rw [hw],by rw [hsettle],hext⟩

theorem place_spec (v : Voice β) (m : VoiceMemory β) (p : Placement β) (part : Option Char)
    (h : ∀ i ∈ m.tiedFrom, i < v.notes.length) :
    ∃ w n i, place v m p part = .ok (w,n,i) ∧ place v.settle m p part = .ok (w.settle,n,i) ∧
      v.Extends w ∧ i < w.notes.length ∧ n.lastGroup = m.lastGroup ∧ n.tiedFrom = m.tiedFrom := by
  obtain ⟨found,hfound,hsettle,hrange⟩ := v.tiedNote_spec (v.soundingPitch p.written) m.tiedFrom h
  have hpitch : v.settle.soundingPitch p.written = v.soundingPitch p.written := rfl
  simp only [place, hpitch, hfound, hsettle, ok_bind]
  generalize (if (Shading.ofDecorations m.velocity (p.decorations ++ m.spans)).staccato then
    p.advance / 2.0 else p.advance) = duration
  cases found with
  | none =>
    refine ⟨_,_,_,rfl,rfl,v.extends_addNote _,?_,rfl,rfl⟩
    simp [Voice.addNote]
  | some i =>
    obtain ⟨w,hw,hwsettle,hext⟩ := v.modifyNote_spec
      (fun n => { n with duration := p.start + duration - n.start }) (hrange i rfl)
    simp only [hw, hwsettle, ok_bind]
    exact ⟨_,_,_,rfl,rfl,hext,Nat.lt_of_lt_of_le (hrange i rfl) hext.notes,rfl,rfl⟩

namespace MusicState

theorem finishChord_spec (v : Voice β) (velocity : Int) (chord : OpenChord β)
    (multiplier advance : β) (part : Option Char) (h : ∀ i ∈ chord.notes, i < v.notes.length) :
    ∃ w, finishChord v velocity chord multiplier advance part = .ok w ∧
      finishChord v.settle velocity chord multiplier advance part = .ok w.settle ∧
      v.Extends w := by
  obtain ⟨u,hu,husettle,hvu⟩ :=
    v.modifyNotes_spec (fun n => { n with duration := n.duration * multiplier }) h
  simp only [finishChord, hu, husettle, ok_bind]
  by_cases hgraces : chord.graces.isEmpty = true
  · exact ⟨u,if_pos hgraces,if_pos hgraces,hvu⟩
  · obtain ⟨w,borrowed,hw,hwsettle,huw⟩ :=
      placeGraces_spec u velocity chord.graces chord.start advance part
    have hw' : ∀ i ∈ chord.notes, i < w.notes.length := fun i hi =>
      Nat.lt_of_lt_of_le (h i hi) (hvu.trans huw).notes
    obtain ⟨x,hx,hxsettle,hwx⟩ := w.modifyNotes_spec
      (fun n => { n with
        start := n.start + borrowed, duration := remaining n.duration borrowed }) hw'
    simp only [if_neg hgraces, hw, hwsettle]
    exact ⟨x,hx,hxsettle,(hvu.trans huw).trans hwx⟩

/-! ## What one voice sees -/

/-- The state of reading as one voice sees it. -/
def solo (s : MusicState β) (id : String) : MusicState β :=
  { s with voices := s.voices.solo id, memories := [(id,s.memory id)] }

/-- Reading has come from a first state to the last one with one voice active: that voice sees
`t`, and nothing of the other voices has changed. The notes that are to be changed later are
among those of the voice. -/
structure Tracks (id : String) (first : MusicState β) (v : Voice β) (s t : MusicState β) :
    Prop where
  solo : t = s.solo id
  active : s.voices.active = some id
  found : s.voices.find? id = some v
  lastGroup : ∀ i ∈ (s.memory id).lastGroup, i < v.notes.length
  tiedFrom : ∀ i ∈ (s.memory id).tiedFrom, i < v.notes.length
  chord : ∀ c ∈ s.chord, ∀ i ∈ c.notes, i < v.notes.length
  part : s.part = first.part
  contains : ∀ other, s.voices.contains other = first.voices.contains other
  named : ∀ other ≠ id, s.voices.named other = first.voices.named other
  memory : ∀ other ≠ id, s.memory other = first.memory other

/-- A token has the same outcome in the whole state and as the voice sees it. -/
def Agree (id : String) (first : MusicState β) (whole seen : Except Fault (Handled β)) : Prop :=
  ∃ s t problem v, whole = .ok (s,problem) ∧ seen = .ok (t,problem) ∧ Tracks id first v s t

theorem memory_setMemory_of_ne (s : MusicState β) {id other : String} (m : VoiceMemory β)
    (h : other ≠ id) : (s.setMemory id m).memory other = s.memory other := by
  have hlookup : ((s.memories.filter (·.1 != id)).lookup other) = s.memories.lookup other := by
    induction s.memories with
    | nil => rfl
    | cons entry rest ih =>
      obtain ⟨key,n⟩ := entry
      by_cases hkey : key = id
      · subst hkey
        rw [List.filter_cons_of_neg (by simp), ih, List.lookup_cons, beq_false_of_ne h]
      · rw [List.filter_cons_of_pos (by simpa using hkey), List.lookup_cons, List.lookup_cons, ih]
  simp only [MusicState.memory, setMemory, List.lookup_cons, beq_false_of_ne h, hlookup]

namespace Tracks

variable {id : String} {first s t : MusicState β} {v w : Voice β} (h : Tracks id first v s t)

include h

theorem noteVoice_left : s.voices.noteVoice = id := VoiceTable.noteVoice_of_active h.active

theorem ensureActive_left : s.voices.ensureActive = s.voices :=
  VoiceTable.ensureActive_of_active h.active

theorem active_right : t.voices.active = some id := by
  rw [h.solo]
  rfl

theorem noteVoice_right : t.voices.noteVoice = id := VoiceTable.noteVoice_of_active h.active_right

theorem ensureActive_right : t.voices.ensureActive = t.voices :=
  VoiceTable.ensureActive_of_active h.active_right

theorem memory_right : t.memory id = s.memory id := by
  rw [h.solo]
  simp [MusicState.memory, MusicState.solo]

theorem find?_right : t.voices.find? id = some v.settle := by
  rw [h.solo]
  exact (VoiceTable.find?_solo s.voices id).trans (congrArg (Option.map Voice.settle) h.found)

theorem cursor_right : t.voices.cursor = s.voices.cursor := by
  rw [h.solo]
  exact VoiceTable.clock_of_active h.active

theorem tuplets_right : t.tuplets = s.tuplets := by
  rw [h.solo]
  rfl

theorem graceGroup_right : t.graceGroup = s.graceGroup := by
  rw [h.solo]
  rfl

theorem chord_right : t.chord = s.chord := by
  rw [h.solo]
  rfl

theorem decorations_right : t.decorations = s.decorations := by
  rw [h.solo]
  rfl

theorem part_right : t.part = s.part := by
  rw [h.solo]
  rfl

theorem id_eq : v.id = id := VoiceTable.find?_id h.found

theorem accept : Agree id first s.accept t.accept := ⟨s,t,none,v,rfl,rfl,h⟩

theorem reject (problem : MusicProblem) : Agree id first (s.reject problem) (t.reject problem) :=
  ⟨s,t,some problem,v,rfl,rfl,h⟩

theorem setTuplets (tuplets : List Tuplet) :
    Tracks id first v { s with tuplets } { t with tuplets } := by
  obtain ⟨rfl,hactive,hfound,hlast,htied,hchord,hpart,hcontains,hnamed,hmemory⟩ := h
  exact ⟨rfl,hactive,hfound,hlast,htied,hchord,hpart,hcontains,hnamed,hmemory⟩

theorem setGraceGroup (graceGroup : Option (List (Grace β))) :
    Tracks id first v { s with graceGroup } { t with graceGroup } := by
  obtain ⟨rfl,hactive,hfound,hlast,htied,hchord,hpart,hcontains,hnamed,hmemory⟩ := h
  exact ⟨rfl,hactive,hfound,hlast,htied,hchord,hpart,hcontains,hnamed,hmemory⟩

theorem setChord (chord : Option (OpenChord β))
    (hc : ∀ c ∈ chord, ∀ i ∈ c.notes, i < v.notes.length) :
    Tracks id first v { s with chord } { t with chord } := by
  obtain ⟨rfl,hactive,hfound,hlast,htied,_,hpart,hcontains,hnamed,hmemory⟩ := h
  exact ⟨rfl,hactive,hfound,hlast,htied,hc,hpart,hcontains,hnamed,hmemory⟩

theorem setDecorations (decorations : List Decoration) :
    Tracks id first v { s with decorations } { t with decorations } := by
  obtain ⟨rfl,hactive,hfound,hlast,htied,hchord,hpart,hcontains,hnamed,hmemory⟩ := h
  exact ⟨rfl,hactive,hfound,hlast,htied,hchord,hpart,hcontains,hnamed,hmemory⟩

theorem setMemory {m : VoiceMemory β} (hlast : ∀ i ∈ m.lastGroup, i < v.notes.length)
    (htied : ∀ i ∈ m.tiedFrom, i < v.notes.length) :
    Tracks id first v (s.setMemory id m) (t.setMemory id m) := by
  obtain ⟨rfl,hactive,hfound,_,_,hchord,hpart,hcontains,hnamed,hmemory⟩ := h
  refine ⟨?_,hactive,hfound,?_,?_,hchord,hpart,hcontains,hnamed,?_⟩
  · simp [MusicState.setMemory, MusicState.solo, MusicState.memory]
  · rwa [memory_setMemory]
  · rwa [memory_setMemory]
  · intro other hne
    rw [memory_setMemory_of_ne s m hne, hmemory other hne]

theorem mapMemory (f : VoiceMemory β → VoiceMemory β)
    (hlast : ∀ i ∈ (f (s.memory id)).lastGroup, i < v.notes.length)
    (htied : ∀ i ∈ (f (s.memory id)).tiedFrom, i < v.notes.length) :
    Tracks id first v (s.mapMemory id f) (t.mapMemory id f) := by
  rw [MusicState.mapMemory, MusicState.mapMemory, h.memory_right]
  exact h.setMemory hlast htied

theorem advance (beats : β) :
    Tracks id first v { s with voices := s.voices.advance beats }
      { t with voices := t.voices.advance beats } := by
  obtain ⟨rfl,hactive,hfound,hlast,htied,hchord,hpart,hcontains,hnamed,hmemory⟩ := h
  refine ⟨?_,hactive,hfound,hlast,htied,hchord,hpart,hcontains,hnamed,hmemory⟩
  simp only [MusicState.solo, VoiceTable.solo_advance hactive]
  rfl

theorem step (beats : β) : Tracks id first v (s.step beats) (t.step beats) := by
  have hstep := (h.advance beats).setTuplets (Tuplet.countNote s.tuplets)
  have htuplets : Tuplet.countNote s.tuplets = Tuplet.countNote t.tuplets := by
    rw [h.tuplets_right]
  rw [MusicState.step, MusicState.step, ← htuplets]
  exact hstep

theorem setVoice (hext : v.Extends w) : Tracks id first w (s.setVoice w) (t.setVoice w.settle) := by
  have hid : w.id = id := hext.id.trans h.id_eq
  obtain ⟨rfl,hactive,hfound,hlast,htied,hchord,hpart,hcontains,hnamed,hmemory⟩ := h
  have hgrow : ∀ {i : Nat}, i < v.notes.length → i < w.notes.length := fun hi =>
    Nat.lt_of_lt_of_le hi hext.notes
  refine ⟨?_,hactive,?_,fun i hi => hgrow (hlast i hi),fun i hi => hgrow (htied i hi),
    fun c hc i hi => hgrow (hchord c hc i hi),hpart,?_,?_,hmemory⟩
  · have hsettle : w.settle.id = id := hid
    simp only [MusicState.setVoice, MusicState.solo, hid, hsettle,
      VoiceTable.solo_setVoice hactive hid]
    rfl
  · simp only [MusicState.setVoice, hid]
    rw [VoiceTable.find?_modify (fun _ => w) fun _ _ => hid, hfound]
    rfl
  · intro other
    simp only [MusicState.setVoice, hid]
    rw [VoiceTable.contains_modify (fun _ => w) (fun _ _ => hid), hcontains]
  · intro other hne
    simp only [MusicState.setVoice, hid]
    rw [VoiceTable.named_modify_of_ne (fun _ => w) (fun _ _ => hid) hne, hnamed other hne]

/-! ## Single tokens -/

theorem rest (text : Text) (context : MusicContext β) :
    Agree id first (s.rest text context) (t.rest text context) := by
  simp only [MusicState.rest, h.graceGroup_right, h.chord_right, h.tuplets_right,
    h.noteVoice_left, h.noteVoice_right, h.ensureActive_left, h.ensureActive_right, h.memory_right]
  by_cases hinside : (s.graceGroup.isSome || s.chord.isSome) = true
  · rw [if_pos hinside, if_pos hinside]
    exact h.reject _
  · rw [if_neg hinside, if_neg hinside]
    cases readLength? (β := β) (text.drop 1) with
    | none => exact h.reject _
    | some length =>
      obtain rfl := h.solo
      refine (((h.setDecorations []).setMemory ?_ ?_).step _).accept
      · simp
      · simp

theorem multiRest (text : Text) (context : MusicContext β) :
    Agree id first (s.multiRest text context) (t.multiRest text context) := by
  simp only [MusicState.multiRest, h.noteVoice_left, h.noteVoice_right, h.ensureActive_left,
    h.ensureActive_right]
  cases barCount? (β := β) (text.drop 1) with
  | none => exact h.reject _
  | some bars =>
    refine ((h.mapMemory _ ?_ ?_).advance _).accept
    · simp
    · simp

theorem barLine : Agree id first s.barLine t.barLine := by
  simp only [MusicState.barLine, h.active, h.active_right]
  refine (h.mapMemory _ ?_ ?_).accept
  · exact h.lastGroup
  · exact h.tiedFrom

theorem openGrace : Agree id first s.openGrace t.openGrace := by
  simp only [MusicState.openGrace, h.graceGroup_right]
  by_cases hgrace : s.graceGroup.isSome = true
  · rw [if_pos hgrace, if_pos hgrace]
    exact h.reject _
  · rw [if_neg hgrace, if_neg hgrace]
    exact (h.setGraceGroup _).accept

theorem closeGrace : Agree id first s.closeGrace t.closeGrace := by
  simp only [MusicState.closeGrace, h.graceGroup_right, h.noteVoice_left, h.noteVoice_right,
    h.ensureActive_left, h.ensureActive_right]
  cases s.graceGroup with
  | none => exact h.reject _
  | some group =>
    refine ((h.setGraceGroup none).mapMemory _ ?_ ?_).accept
    · exact h.lastGroup
    · exact h.tiedFrom

theorem openTuplet (text : Text) (context : MusicContext β) :
    Agree id first (s.openTuplet text context) (t.openTuplet text context) := by
  simp only [MusicState.openTuplet, h.tuplets_right]
  cases Tuplet.read? text context.meter with
  | none => exact h.reject _
  | some tuplet =>
    by_cases hopen : tuplet.isOpen = true
    · simp only [if_pos hopen]
      exact (h.setTuplets _).accept
    · simp only [if_neg hopen]
      exact h.accept

theorem tie : Agree id first s.tie t.tie := by
  simp only [MusicState.tie, h.noteVoice_left, h.noteVoice_right, h.ensureActive_left,
    h.ensureActive_right]
  refine (h.mapMemory _ ?_ ?_).accept
  · exact h.lastGroup
  · exact h.lastGroup

theorem openChord : Agree id first s.openChord t.openChord := by
  simp only [MusicState.openChord, h.graceGroup_right, h.chord_right, h.tuplets_right,
    h.decorations_right, h.noteVoice_left, h.noteVoice_right, h.ensureActive_left,
    h.ensureActive_right, h.memory_right, h.cursor_right]
  by_cases hchord : s.chord.isSome = true
  · rw [if_pos hchord, if_pos hchord]
    exact h.reject _
  · rw [if_neg hchord, if_neg hchord]
    by_cases hgrace : s.graceGroup.isSome = true
    · rw [if_pos hgrace, if_pos hgrace]
      exact h.reject _
    · rw [if_neg hgrace, if_neg hgrace]
      obtain rfl := h.solo
      have hopened := (h.setDecorations []).setChord (some
        { start := s.voices.cursor
          notes := []
          firstAdvance := none
          factor := (s.memory id).brokenNext.getD 1.0 * Tuplet.scaleAll s.tuplets
          decorations := s.decorations
          graces := (s.memory id).graces }) (by simp)
      refine (hopened.setMemory ?_ ?_).accept
      · exact h.lastGroup
      · exact h.tiedFrom

theorem decorate (name : Text) : Agree id first (s.decorate name) (t.decorate name) := by
  simp only [MusicState.decorate, h.decorations_right]
  exact (h.setDecorations _).accept

theorem namedDecoration (text : Text) :
    Agree id first (s.namedDecoration text) (t.namedDecoration text) := by
  simp only [MusicState.namedDecoration, h.noteVoice_left, h.noteVoice_right,
    h.ensureActive_left, h.ensureActive_right, h.memory_right]
  split
  · refine (h.mapMemory _ ?_ ?_).accept
    · exact h.lastGroup
    · exact h.tiedFrom
  · cases closeSpan? (spanName ((text.drop 1).dropLast).dropLast) (s.memory id).spans with
    | none => exact h.reject _
    | some spans =>
      refine (h.mapMemory _ ?_ ?_).accept
      · exact h.lastGroup
      · exact h.tiedFrom
  · exact h.decorate _

theorem brokenRhythm (text : Text) :
    Agree id first (s.brokenRhythm text) (t.brokenRhythm text) := by
  simp only [MusicState.brokenRhythm, h.active, h.active_right, h.memory_right, h.cursor_right,
    h.found, h.find?_right]
  by_cases hlast : (s.memory id).lastAdvance ≤ 0.0
  · rw [if_pos hlast, if_pos hlast]
    exact h.reject _
  · rw [if_neg hlast, if_neg hlast]
    obtain ⟨w,hw,hsettle,hext⟩ := v.modifyNotes_spec
      (fun n => { n with
        duration := remaining
          (s.voices.cursor - (s.memory id).lastAdvance +
            (n.stop - (s.voices.cursor - (s.memory id).lastAdvance)) * (brokenFactors text).1)
          n.start })
      h.lastGroup
    simp only [hw, hsettle, ok_bind]
    refine (((h.setVoice hext).setMemory ?_ ?_).advance _).accept
    · exact (h.setVoice hext).lastGroup
    · exact (h.setVoice hext).tiedFrom

theorem closeChord (text : Text) : Agree id first (s.closeChord text) (t.closeChord text) := by
  simp only [MusicState.closeChord, h.chord_right, h.noteVoice_left, h.noteVoice_right,
    h.ensureActive_left, h.ensureActive_right]
  cases hchord : s.chord with
  | none => exact h.reject _
  | some chord =>
    have hclosed := h.setChord none (by simp)
    cases readLength? (β := β) (text.drop 1) with
    | none => exact hclosed.reject _
    | some multiplier =>
      have hnotes := h.chord chord hchord
      have hleft : MusicState.memory { s with chord := none } id = s.memory id := rfl
      have hright : MusicState.memory { t with chord := none } id = s.memory id := h.memory_right
      obtain ⟨w,hw,hsettle,hext⟩ := finishChord_spec v (s.memory id).velocity chord multiplier
        (chord.firstAdvance.getD 0.0 * multiplier) s.part hnotes
      simp only [hleft, hright, h.found, h.find?_right]
      simp only [h.part_right, hw, hsettle, ok_bind]
      have hlast : ∀ i ∈ chord.notes, i < w.notes.length := fun i hi =>
        Nat.lt_of_lt_of_le (hnotes i hi) hext.notes
      obtain rfl := h.solo
      refine (((hclosed.setVoice hext).setMemory ?_ ?_).step _).accept
      · exact hlast
      · simp

theorem addGrace (group : List (Grace β)) (written : Int) (nominal : β) :
    Agree id first (s.addGrace group written nominal) (t.addGrace group written nominal) :=
  (h.setGraceGroup _).accept

theorem addToChord (chord : OpenChord β) (hchord : ∀ i ∈ chord.notes, i < v.notes.length)
    (written : Int) (nominal : β) :
    Agree id first (s.addToChord chord v written nominal)
      (t.addToChord chord v.settle written nominal) := by
  have hid : v.settle.id = v.id := rfl
  obtain ⟨w,m,i,hw,hsettle,hext,hi,hlast,htied⟩ := place_spec v (s.memory id)
    ⟨written,chord.start,nominal * chord.factor,s.decorations ++ chord.decorations⟩ s.part
    h.tiedFrom
  have hwid : w.id = id := hext.id.trans h.id_eq
  have hsettleId : w.settle.id = id := hwid
  simp only [MusicState.addToChord, hid, h.id_eq, h.memory_right, h.decorations_right,
    h.part_right, hw, hsettle, ok_bind, hwid, hsettleId]
  have hgrow : ∀ {j : Nat}, j < v.notes.length → j < w.notes.length := fun hj =>
    Nat.lt_of_lt_of_le hj hext.notes
  have hnotes : ∀ j ∈ chord.notes ++ [i], j < w.notes.length := by
    intro j hj
    rcases List.mem_append.mp hj with hj | hj
    · exact hgrow (hchord j hj)
    · exact List.mem_singleton.mp hj ▸ hi
  have hplaced := (h.setDecorations []).setVoice hext
  have hremembered := hplaced.setMemory (m := m) (fun j hj => hgrow (h.lastGroup j (hlast ▸ hj)))
    fun j hj => hgrow (h.tiedFrom j (htied ▸ hj))
  have hnoted := hremembered.setChord (some { chord with
    notes := chord.notes ++ [i]
    firstAdvance := chord.firstAdvance <|> some (nominal * chord.factor) }) (by simpa using hnotes)
  obtain rfl := h.solo
  exact hnoted.accept

theorem addSingle (written : Int) (nominal : β) :
    Agree id first (s.addSingle v written nominal) (t.addSingle v.settle written nominal) := by
  have hid : v.settle.id = v.id := rfl
  simp only [MusicState.addSingle, hid, h.id_eq, h.memory_right, h.cursor_right, h.tuplets_right]
  generalize nominal * (s.memory id).brokenNext.getD 1.0 * Tuplet.scaleAll s.tuplets = advance
  obtain ⟨u,borrowed,hu,husettle,hvu⟩ := placeGraces_spec v (s.memory id).velocity
    (s.memory id).graces s.voices.cursor advance s.part
  have htied : ∀ i ∈ (s.memory id).tiedFrom, i < u.notes.length := fun i hi =>
    Nat.lt_of_lt_of_le (h.tiedFrom i hi) hvu.notes
  obtain ⟨w,m,i,hw,hsettle,huw,hi,_,_⟩ := place_spec u
    { s.memory id with brokenNext := none, graces := [] }
    ⟨written,s.voices.cursor + borrowed,advance - borrowed,s.decorations⟩ s.part htied
  have hwid : w.id = id := (hvu.trans huw).id.trans h.id_eq
  have hsettleId : w.settle.id = id := hwid
  simp only [h.part_right, h.decorations_right, hu, husettle, hw, hsettle, ok_bind, hwid,
    hsettleId]
  have hplaced := (h.setDecorations []).setVoice (hvu.trans huw)
  have hremembered := hplaced.setMemory
    (m := { m with tiedFrom := [], lastGroup := [i], lastAdvance := advance })
    (by simpa using hi) (by simp)
  obtain rfl := h.solo
  exact (hremembered.step advance).accept

theorem note (text : Text) (context : MusicContext β) :
    Agree id first (s.note text context) (t.note text context) := by
  simp only [MusicState.note, h.noteVoice_left, h.noteVoice_right, h.ensureActive_left,
    h.ensureActive_right]
  cases WrittenNote.read? (β := β) text with
  | none => exact h.reject _
  | some written =>
    have hleft : MusicState.memory { s with voices := s.voices } id = s.memory id := rfl
    have hright : MusicState.memory { t with voices := t.voices } id = s.memory id := h.memory_right
    simp only [hleft, hright]
    obtain ⟨hlast,htied⟩ := resolve_places (s.memory id) written context.key
    have hnext := h.setMemory (m := ((s.memory id).resolve written context.key).1)
      (hlast ▸ h.lastGroup) (htied ▸ h.tiedFrom)
    change Tracks id first v
      (MusicState.setMemory { s with voices := s.voices } id _)
      (MusicState.setMemory { t with voices := t.voices } id _) at hnext
    generalize MusicState.setMemory { s with voices := s.voices } id _ = s' at hnext ⊢
    generalize MusicState.setMemory { t with voices := t.voices } id _ = t' at hnext ⊢
    rw [hnext.graceGroup_right]
    cases s'.graceGroup with
    | some group => exact hnext.addGrace group _ _
    | none =>
      simp only [hnext.found, hnext.find?_right, hnext.chord_right]
      cases hchord : s'.chord with
      | some chord => exact hnext.addToChord chord (hnext.chord chord hchord) _ _
      | none => exact hnext.addSingle _ _

/-- Whatever the token, it is handled, and the voice sees the same outcome. -/
theorem handle (token : Token) (context : MusicContext β) :
    Agree id first (s.handle token context) (t.handle token context) := by
  unfold MusicState.handle
  split
  · exact h.note _ _
  · exact h.rest _ _
  · exact h.multiRest _ _
  · exact h.barLine
  · exact h.barLine
  · exact h.barLine
  · exact h.barLine
  · exact h.barLine
  · exact h.openChord
  · exact h.closeChord _
  · exact h.openGrace
  · exact h.closeGrace
  · exact h.openTuplet _ _
  · exact h.tie
  · exact h.brokenRhythm _
  · exact h.decorate _
  · exact h.namedDecoration _
  · exact h.reject _
  · exact h.accept

end Tracks

end MusicState
end AbcTune
