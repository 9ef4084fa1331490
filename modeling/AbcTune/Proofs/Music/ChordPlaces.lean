import AbcTune.Proofs.Music.InRange

/-! # What closing a chord touches

An open chord remembers the places of its notes but not their voices, and it is closed in the voice
that notes go to then. So the end of a chord changes the start and the duration of notes at these
places in that voice, whether or not they are notes of the chord.
-/
namespace AbcTune

variable {β : Type}

/-! ## Notes that are timed anew -/

/-- A note that differs from another in its start and its duration alone. -/
def Note.Retimed (n n' : Note β) : Prop := n' = { n with start := n'.start, duration := n'.duration }

theorem Note.Retimed.refl (n : Note β) : n.Retimed n := rfl

theorem Note.Retimed.trans {n n' n'' : Note β} (h : n.Retimed n') (h' : n'.Retimed n'') :
    n.Retimed n'' := by
  unfold Note.Retimed at *
  rw [h'] at *
  rw [h]

theorem Note.Retimed.iterate {f : Note β → Note β} (hf : ∀ n : Note β, n.Retimed (f n)) (times : Nat)
    (n : Note β) : n.Retimed (f^[times] n) := by
  induction times generalizing n with
  | zero => exact .refl n
  | succ times ih => exact (hf n).trans (ih (f n))

section Notes

variable [Beats β]

/-- A note of a chord whose length is multiplied. -/
def Note.multiply (multiplier : β) (n : Note β) : Note β :=
  { n with duration := n.duration * multiplier }

/-- A note of a chord behind its grace notes. -/
def Note.delay (borrowed : β) (n : Note β) : Note β :=
  { n with start := n.start + borrowed, duration := MusicState.remaining n.duration borrowed }

/-- What closing a chord makes of a note whose place is so many times one of the chord. -/
def OpenChord.retime (chord : OpenChord β) (multiplier borrowed : β) (times : Nat) (n : Note β) :
    Note β :=
  let n := (Note.multiply multiplier)^[times] n
  if chord.graces.isEmpty then n else (Note.delay borrowed)^[times] n

theorem OpenChord.retime_zero (chord : OpenChord β) (multiplier borrowed : β) (n : Note β) :
    chord.retime multiplier borrowed 0 n = n := by
  unfold OpenChord.retime
  split <;> rfl

theorem OpenChord.retimed (chord : OpenChord β) (multiplier borrowed : β) (times : Nat)
    (n : Note β) : n.Retimed (chord.retime multiplier borrowed times n) := by
  have hmultiply (n : Note β) : n.Retimed (n.multiply multiplier) := rfl
  have hdelay (n : Note β) : n.Retimed (n.delay borrowed) := rfl
  unfold OpenChord.retime
  split
  · exact .iterate hmultiply times n
  · exact (Note.Retimed.iterate hmultiply times n).trans (.iterate hdelay times _)

theorem addGraces_eq (v : Voice β) (velocity : Int) (factor : β) (part : Option Char)
    (graces : List (Grace β)) (time : β) :
    ∃ more stop, addGraces v velocity factor part graces time =
      ({ v with notes := v.notes ++ more },stop) := by
  induction graces generalizing v time with
  | nil => exact ⟨[],time,by simp [addGraces]⟩
  | cons g rest ih =>
    unfold addGraces
    dsimp only
    obtain ⟨more,stop,h⟩ := ih (v.addNote _) _
    rw [h]
    exact ⟨_,stop,congrArg (fun notes => ({ v with notes },stop)) (List.append_assoc v.notes _ _)⟩

/-- Grace notes come behind all notes of a voice and change nothing else of it. -/
theorem placeGraces_eq (v : Voice β) (velocity : Int) (graces : List (Grace β))
    (start principal : β) (part : Option Char) :
    ∃ more borrowed, placeGraces v velocity graces start principal part =
      ({ v with notes := v.notes ++ more },borrowed) := by
  unfold placeGraces
  dsimp only
  split
  · exact ⟨[],_,by rw [List.append_nil]⟩
  · obtain ⟨more,stop,h⟩ := addGraces_eq v velocity _ part graces start
    exact ⟨more,_,by rw [h]⟩

theorem MusicState.finishChord_notes {v w : Voice β} {velocity : Int} {chord : OpenChord β}
    {multiplier advance : β} {part : Option Char}
    (h : finishChord v velocity chord multiplier advance part = .ok w) :
    w.id = v.id ∧ ∃ borrowed, ∀ i, ∀ n ∈ v.notes[i]?,
      w.notes[i]? = some (chord.retime multiplier borrowed (chord.notes.count i) n) := by
  unfold finishChord at h
  obtain ⟨u,hu,h⟩ := exists_of_bind_ok h
  obtain ⟨notes,rfl,hnotes⟩ := Voice.modifyNotes_ok hu
  split at h
  · next hgraces =>
    obtain rfl := Except.ok.inj h
    refine ⟨rfl,0.0,fun i n hn => ?_⟩
    rw [OpenChord.retime, if_pos hgraces]
    exact (hnotes i).trans (congrArg _ hn)
  · next hgraces =>
    obtain ⟨more,borrowed,hplaced⟩ := placeGraces_eq { v with notes } velocity chord.graces
      chord.start advance part
    rw [hplaced] at h
    obtain ⟨moved,rfl,hmoved⟩ := Voice.modifyNotes_ok h
    refine ⟨rfl,borrowed,fun i n hn => ?_⟩
    have hfirst : (notes ++ more)[i]? =
        some ((Note.multiply multiplier)^[chord.notes.count i] n) := by
      have hmultiplied := (hnotes i).trans (congrArg _ hn)
      rw [List.getElem?_append_left (List.getElem?_eq_some_iff.mp hmultiplied).1]
      exact hmultiplied
    rw [OpenChord.retime, if_neg hgraces]
    exact (hmoved i).trans (congrArg _ hfirst)

/-! ## Where a note of a chord is written -/

/-- A note that is placed comes to stand at its place, and the notes at all others stay. -/
theorem place_writes {v w : Voice β} {m m' : VoiceMemory β} {p : Placement β}
    {part : Option Char} {i : Nat} (h : place v m p part = .ok (w,m',i)) :
    w.id = v.id ∧ i < w.notes.length ∧ ∀ j ≠ i, w.notes[j]? = v.notes[j]? := by
  unfold place at h
  obtain ⟨tied,-,h⟩ := exists_of_bind_ok h
  split at h
  · obtain ⟨u,hu,h⟩ := exists_of_bind_ok h
    cases h
    obtain ⟨note,hnote,rfl⟩ := Voice.modifyNote_ok hu
    have hi := (List.getElem?_eq_some_iff.mp hnote).1
    exact ⟨rfl,by simpa using hi,fun j hj => List.getElem?_set_ne (Ne.symm hj)⟩
  · cases h
    refine ⟨rfl,by simp [Voice.addNote],fun j hj => ?_⟩
    rcases Nat.lt_or_gt_of_ne hj with hlt | hgt
    · exact List.getElem?_append_left hlt
    · rw [List.getElem?_eq_none (Nat.le_of_lt hgt), List.getElem?_eq_none]
      simpa [Voice.addNote, Nat.succ_le_iff] using hgt

omit [Beats β] in
theorem VoiceTable.getElem?_notesOf_replace {t : VoiceTable β} {v w : Voice β} {i : Nat}
    (hv : t.find? w.id = some v) (hw : ∀ j ≠ i, w.notes[j]? = v.notes[j]?) {other : String} {j : Nat}
    (h : (other,j) ≠ (w.id,i)) :
    ((t.modify w.id fun _ => w).notesOf other)[j]? = (t.notesOf other)[j]? := by
  by_cases hother : other = w.id
  · subst hother
    have hj : j ≠ i := fun hj => h (hj ▸ rfl)
    rw [notesOf_replace hv, notesOf_of_find? hv]
    exact hw j hj
  · exact congrArg (·[j]?) (notesOf_replace_of_ne hother)

namespace MusicState

variable {s t : MusicState β} {v w : Voice β} {id : String} {i : Nat}

theorem exists_of_chordNote? {text : Text} {context : MusicContext β}
    (h : s.chordNote? text context = some (id,i)) :
    ∃ (w : WrittenNote β) (chord : OpenChord β) (v : Voice β), WrittenNote.read? text = some w ∧
      s.graceGroup = none ∧ s.chord = some chord ∧
      s.voices.ensureActive.find? s.voices.noteVoice = some v ∧ id = s.voices.noteVoice := by
  unfold chordNote? at h
  split at h
  · next chord hgrace hchord =>
    obtain ⟨w,hread,h⟩ := Option.bind_eq_some_iff.mp h
    obtain ⟨v,hv,h⟩ := Option.bind_eq_some_iff.mp h
    exact ⟨w,chord,v,hread,hgrace,hchord,hv,(Prod.mk.inj (Option.some.inj h)).1.symm⟩
  · cases h

/-- A note token in an open chord writes where it is said to, and nowhere else. -/
theorem InRange.note_writes (h : s.InRange) {text : Text} {context : MusicContext β}
    {problem : Option MusicProblem} (hplace : s.chordNote? text context = some (id,i))
    (hok : s.note text context = .ok (t,problem)) :
    i < (t.voices.notesOf id).length ∧ ∀ other j, (other,j) ≠ (id,i) →
      (t.voices.notesOf other)[j]? = (s.voices.notesOf other)[j]? := by
  obtain ⟨w,chord,v,hread,hgrace,hchord,hv,rfl⟩ := exists_of_chordNote? hplace
  have hid := VoiceTable.find?_id hv
  rw [chordNote?_eq_some context hgrace hchord hread hv] at hplace
  rw [note_eq context hread hv, hgrace, hchord] at hok
  dsimp only at hok
  unfold MusicState.addToChord at hok
  obtain ⟨⟨u,m,k⟩,hplaced,hok⟩ := exists_of_bind_ok hok
  cases hok
  have hresolved := h.resolved w context.key
  have hv' : (s.resolved w context.key).voices.find? v.id = some v := hid ▸ hv
  have htied : ∀ j ∈ ((s.resolved w context.key).memory v.id).tiedFrom, j < v.notes.length :=
    VoiceTable.notesOf_of_find? hv' ▸ hresolved.tiedFrom v.id
  have hk := place_index htied hplaced
  rw [hid, MusicState.resolved, memory_setMemory] at hk
  obtain rfl : k = i := hk.trans (Prod.mk.inj (Option.some.inj hplace)).2
  obtain ⟨huid,hlt,hothers⟩ := place_writes hplaced
  have hu : s.voices.ensureActive.find? u.id = some v := huid ▸ hv'
  rw [← hid, ← huid]
  refine ⟨?_,fun other j hne => ?_⟩
  · exact (VoiceTable.notesOf_replace hu).symm ▸ hlt
  · rw [← VoiceTable.notesOf_ensureActive s.voices other]
    exact VoiceTable.getElem?_notesOf_replace hu hothers hne

/-! ## Closing -/

/-- The notes that the end of a chord is taken to change: those of the voice that notes go to, at
the places of the chord. Notes at other places and of other voices stay. -/
theorem closeChord_notes {text : Text} {problem : Option MusicProblem} (hactive : s.voices.HasActive)
    {chord : OpenChord β} {multiplier : β} (hchord : s.chord = some chord)
    (hlength : readLength? (text.drop 1) = some multiplier)
    (hok : s.closeChord text = .ok (t,problem)) :
    (∀ other ≠ s.voices.noteVoice, t.voices.notesOf other = s.voices.notesOf other) ∧
    ∃ borrowed, ∀ i, ∀ n ∈ (s.voices.notesOf s.voices.noteVoice)[i]?,
      (t.voices.notesOf s.voices.noteVoice)[i]? =
        some (chord.retime multiplier borrowed (chord.notes.count i) n) := by
  obtain ⟨v,hv,hid⟩ := hactive.exists_noteVoice
  rw [closeChord_eq hchord hlength hv] at hok
  obtain ⟨w,hw,hok⟩ := exists_of_bind_ok hok
  cases hok
  obtain ⟨hwid,borrowed,hretimed⟩ := finishChord_notes hw
  have hv' : s.voices.ensureActive.find? w.id = some v := (hwid.trans hid) ▸ hv
  have hnotes := VoiceTable.notesOf_ensureActive s.voices s.voices.noteVoice
  rw [← hid, ← hwid] at hnotes ⊢
  refine ⟨fun other hne => ?_,borrowed,fun i n hn => ?_⟩
  · exact (VoiceTable.notesOf_replace_of_ne hne).trans
      (VoiceTable.notesOf_ensureActive s.voices other)
  · rw [← hnotes, VoiceTable.notesOf_of_find? hv'] at hn
    exact (congrArg (·[i]?) (VoiceTable.notesOf_replace hv')).trans (hretimed i n hn)

theorem closeChord_rejected {text : Text} {problem : Option MusicProblem}
    (h : s.chord = none ∨ readLength? (β := β) (text.drop 1) = none)
    (hok : s.closeChord text = .ok (t,problem)) : t.voices = s.voices := by
  unfold MusicState.closeChord at hok
  rcases h with hchord | hlength
  · rw [hchord] at hok
    cases hok
    rfl
  · rw [hlength] at hok
    cases hchord : s.chord <;> rw [hchord] at hok <;> cases hok <;> rfl

/-! ## The notes of a chord -/

/-- The notes that note tokens have written into the open chord, the voice and the place of each,
behind a move. -/
def writtenBehind (s : MusicState β) (written : Option (List (String × Nat))) :
    MusicMove β → Option (List (String × Nat))
  | .token token context =>
    match token.kind with
    | .chordStart => if s.chord.isNone && s.graceGroup.isNone then some [] else written
    | .note => written.map (· ++ (s.chordNote? token.text context).toList)
    | .chordEnd => none
    | _ => written
  | .endLine => none
  | .startPart _ | .voices _ => written

/-- The notes that note tokens have written into the chord that is open at the end of a run. -/
def writtenAfter (s : MusicState β) (written : Option (List (String × Nat))) :
    List (MusicMove β) → Option (List (String × Nat))
  | [] => written
  | m :: rest =>
    match s.move m with
    | .ok t => t.writtenAfter (s.writtenBehind written m) rest
    | .error _ => none

theorem InRange.writtenBehind (h : s.InRange) {written : Option (List (String × Nat))}
    (hwritten : s.chord.map (·.notes) = written.map (·.map (·.2))) {m : MusicMove β}
    (hm : s.move m = .ok t) :
    t.chord.map (·.notes) = (s.writtenBehind written m).map (·.map (·.2)) := by
  cases m with
  | token token context =>
    obtain ⟨⟨u,problem⟩,hok,rfl⟩ := exists_of_map_ok hm
    obtain ⟨-,-,hnotes⟩ := h.of_handle hok
    obtain ⟨kind,text,line,column,properties⟩ := token
    dsimp only at hnotes ⊢
    rw [hnotes]
    cases kind with
    | chordStart =>
      simp only [chordBehind, MusicState.writtenBehind]
      split
      · rfl
      · exact hwritten
    | chordEnd => rfl
    | note =>
      have hcons := congrArg (Option.map (· ++ (s.chordNote? text context).toList.map (·.2))) hwritten
      simpa [chordBehind, MusicState.writtenBehind, Function.comp_def] using hcons
    | _ => exact hwritten
  | endLine =>
    obtain rfl := Except.ok.inj hm
    rfl
  | startPart label =>
    obtain rfl := Except.ok.inj hm
    exact hwritten
  | voices operation =>
    obtain rfl := Except.ok.inj hm
    exact hwritten

theorem InRange.writtenAfter (h : s.InRange) {written : Option (List (String × Nat))}
    (hwritten : s.chord.map (·.notes) = written.map (·.map (·.2))) {moves : List (MusicMove β)}
    (hrun : s.run moves = .ok t) :
    t.chord.map (·.notes) = (s.writtenAfter written moves).map (·.map (·.2)) := by
  induction moves generalizing s written with
  | nil => exact Except.ok.inj hrun ▸ hwritten
  | cons m rest ih =>
    obtain ⟨u,hm,hrun⟩ := exists_of_bind_ok hrun
    rw [MusicState.writtenAfter, hm]
    exact ih (h.move hm) (h.writtenBehind hwritten hm) hrun

/-- From one state to another the notes of a voice at some places are timed anew, and all other
notes that are there stay. -/
structure Retimes (id : String) (places : List Nat) (s t : MusicState β) : Prop where
  others : ∀ other ≠ id, t.voices.notesOf other = s.voices.notesOf other
  notes : ∀ i, ∀ n ∈ (s.voices.notesOf id)[i]?,
    ∃ n', (t.voices.notesOf id)[i]? = some n' ∧ n.Retimed n' ∧ (i ∉ places → n' = n)

omit [Beats β] in
theorem retimes_refl (id : String) (places : List Nat) (h : t.voices = s.voices) :
    Retimes id places s t where
  others _ _ := by rw [h]
  notes i n hn := ⟨n,h ▸ hn,.refl n,fun _ => rfl⟩

theorem InRange.retimes (h : s.InRange) {text : Text} {problem : Option MusicProblem}
    (hok : s.closeChord text = .ok (t,problem)) :
    Retimes s.voices.noteVoice ((s.chord.map (·.notes)).getD []) s t := by
  cases hchord : s.chord with
  | none => exact retimes_refl _ _ (closeChord_rejected (.inl hchord) hok)
  | some chord =>
    cases hlength : readLength? (β := β) (text.drop 1) with
    | none => exact retimes_refl _ _ (closeChord_rejected (.inr hlength) hok)
    | some multiplier =>
      obtain ⟨hothers,borrowed,hnotes⟩ := closeChord_notes h.active hchord hlength hok
      refine ⟨hothers,fun i n hn => ⟨_,hnotes i n hn,chord.retimed _ _ _ n,fun hi => ?_⟩⟩
      have hcount : chord.notes.count i = 0 := List.count_eq_zero_of_not_mem hi
      rw [hcount]
      exact chord.retime_zero multiplier borrowed n

/-- Of the notes that are there already, only those at the given places of voices come out with
another start or another duration. -/
def TouchesOnly (written : List (String × Nat)) (s t : MusicState β) : Prop :=
  ∀ id i, ∀ n ∈ (s.voices.notesOf id)[i]?, ∀ n' ∈ (t.voices.notesOf id)[i]?,
    (n'.start ≠ n.start ∨ n'.duration ≠ n.duration) → (id,i) ∈ written

omit [Beats β] in
/-- What can go wrong is that a place stands for a note of another voice. -/
theorem Retimes.touchesOnly_iff {written : List (String × Nat)}
    (h : Retimes id (written.map (·.2)) s t) :
    TouchesOnly written s t ↔ ∀ place ∈ written, (id,place.2) ∉ written →
      ∀ n ∈ (s.voices.notesOf id)[place.2]?, ∀ n' ∈ (t.voices.notesOf id)[place.2]?,
        n'.start = n.start ∧ n'.duration = n.duration := by
  constructor
  · intro htouches place _ hstray n hn n' hn'
    by_contra hchanged
    rw [not_and_or] at hchanged
    exact hstray (htouches id place.2 n hn n' hn' hchanged)
  · intro hstray other i n hn n' hn' hchanged
    have hdiffers : n' ≠ n := by
      rintro rfl
      rcases hchanged with hchanged | hchanged <;> exact hchanged rfl
    by_cases hother : other = id
    · subst hother
      by_contra hunwritten
      obtain ⟨m,hm,-,hkept⟩ := h.notes i n hn
      obtain rfl : m = n' := Option.some.inj (hm.symm.trans hn')
      obtain ⟨place,hplace,rfl⟩ := List.mem_map.mp (not_imp_comm.mp hkept hdiffers)
      obtain ⟨hstart,hduration⟩ := hstray place hplace hunwritten n hn m hn'
      rcases hchanged with hchanged | hchanged
      · exact hchanged hstart
      · exact hchanged hduration
    · rw [h.others other hother] at hn'
      exact absurd (Option.some.inj (hn'.symm.trans hn)) hdiffers

/-- Along every run an open chord has the places of the notes that note tokens have written into
it, and the end of a chord that is handled times notes anew in the voice that notes go to then,
at these places: each duration is multiplied once for each time that its place was written,
whichever voice it was written in, and grace notes delay it as often. So only notes of the chord
are touched just if each place that was written in other voices alone is one of a note that comes
out as it was, and in particular if the whole chord was written in the voice that it ends in. -/
theorem run_closesChord {moves : List (MusicMove β)} {token : Token} {context : MusicContext β}
    {problem : Option MusicProblem} (hrun : initial.run moves = .ok s)
    (hkind : token.kind = .chordEnd) (hclose : s.handle token context = .ok (t,problem)) :
    let written := (initial.writtenAfter none moves).getD []
    let id := s.voices.noteVoice
    s.chord.map (·.notes) = (initial.writtenAfter none moves).map (·.map (·.2)) ∧
    Retimes id (written.map (·.2)) s t ∧
    (∀ chord multiplier, s.chord = some chord →
      readLength? (token.text.drop 1) = some multiplier →
      ∃ borrowed, ∀ i, ∀ n ∈ (s.voices.notesOf id)[i]?, (t.voices.notesOf id)[i]? =
        some (chord.retime multiplier borrowed ((written.map (·.2)).count i) n)) ∧
    (TouchesOnly written s t ↔ ∀ place ∈ written, (id,place.2) ∉ written →
      ∀ n ∈ (s.voices.notesOf id)[place.2]?, ∀ n' ∈ (t.voices.notesOf id)[place.2]?,
        n'.start = n.start ∧ n'.duration = n.duration) ∧
    ((∀ place ∈ written, place.1 = id) → TouchesOnly written s t) := by
  intro written id
  have hrange : s.InRange := inRange_initial.run hrun
  have hnotes : s.chord.map (·.notes) = (initial.writtenAfter none moves).map (·.map (·.2)) :=
    inRange_initial.writtenAfter rfl hrun
  have hplaces : (s.chord.map (·.notes)).getD [] = written.map (·.2) := by
    rw [hnotes]
    cases hwritten : (initial : MusicState β).writtenAfter none moves <;> simp [written, hwritten]
  obtain ⟨kind,text,line,column,properties⟩ := token
  obtain rfl : kind = .chordEnd := hkind
  have hretimes : Retimes id (written.map (·.2)) s t := hplaces ▸ hrange.retimes hclose
  have htouches := hretimes.touchesOnly_iff
  refine ⟨hnotes,hretimes,fun chord multiplier hchord hlength => ?_,htouches,fun hown => ?_⟩
  · obtain ⟨-,borrowed,hretimed⟩ := closeChord_notes hrange.active hchord hlength hclose
    rw [← hplaces, hchord]
    exact ⟨borrowed,hretimed⟩
  · refine htouches.mpr fun place hplace hstray => ?_
    rw [← hown place hplace] at hstray
    exact absurd hplace hstray

/-- A chord of a tied note and another one, closed with a length in its own voice. -/
theorem run_closesChord_tied :
    ∃ (moves : List (MusicMove Rat)) (s t : MusicState Rat), initial.run moves = .ok s ∧
      s.handle ⟨.chordEnd,"]2".toList,1,1,[]⟩ .initial = .ok (t,none) ∧
      initial.writtenAfter none moves = some [("1",0),("1",1)] ∧
      TouchesOnly [("1",0),("1",1)] s t := by
  let music (kind : TokenKind) (text : String) : MusicMove Rat :=
    .token ⟨kind,text.toList,1,1,[]⟩ .initial
  let moves : List (MusicMove Rat) := [music .note "C",music .tie "-",music .chordStart "[",
    music .note "C",music .note "E"]
  have hrun : ((initial.run moves).toOption.map fun s =>
      (s.voices.noteVoice,((s.handle ⟨.chordEnd,"]2".toList,1,1,[]⟩ .initial).toOption.map
        fun r => r.2.isNone))) = some ("1",some true) := by decide +kernel
  obtain ⟨s,hs,hvalue⟩ := exists_of_toOption_map hrun
  obtain ⟨hid,hvalue⟩ := Prod.mk.inj hvalue
  obtain ⟨⟨t,problem⟩,ht,hproblem⟩ := exists_of_toOption_map hvalue
  obtain rfl : problem = none := Option.isNone_iff_eq_none.mp hproblem
  have hwritten : initial.writtenAfter none moves = some [("1",0),("1",1)] := by decide +kernel
  obtain ⟨-,-,-,-,hown⟩ := run_closesChord hs rfl ht
  rw [hwritten, hid] at hown
  exact ⟨moves,s,t,hs,ht,hwritten,hown (by decide)⟩

/-- A chord of the first voice, closed with a length in a second voice, doubles two notes that the
second voice had before. -/
theorem run_closesChord_elsewhere :
    ∃ (moves : List (MusicMove Rat)) (s t : MusicState Rat), initial.run moves = .ok s ∧
      s.handle ⟨.chordEnd,"]2".toList,1,1,[]⟩ .initial = .ok (t,none) ∧
      initial.writtenAfter none moves = some [("1",0),("1",1)] ∧
      (s.voices.notesOf "2").map (·.duration) = [1/2,1/2] ∧
      (t.voices.notesOf "2").map (·.duration) = [1,1] ∧
      ¬ TouchesOnly [("1",0),("1",1)] s t := by
  let music (kind : TokenKind) (text : String) : MusicMove Rat :=
    .token ⟨kind,text.toList,1,1,[]⟩ .initial
  let moves : List (MusicMove Rat) := [.voices (.switchTo "2"),music .note "A",music .note "B",
    .voices (.switchTo "1"),music .chordStart "[",music .note "C",music .note "E",
    .voices (.switchTo "2")]
  have hrun : ((initial.run moves).toOption.map fun s =>
      ((s.voices.notesOf "2").map (·.duration),
        ((s.handle ⟨.chordEnd,"]2".toList,1,1,[]⟩ .initial).toOption.map fun r =>
          (r.2.isNone,(r.1.voices.notesOf "2").map (·.duration))))) =
      some ([1/2,1/2],some (true,[1,1])) := by decide +kernel
  obtain ⟨s,hs,hvalue⟩ := exists_of_toOption_map hrun
  obtain ⟨hbefore,hvalue⟩ := Prod.mk.inj hvalue
  obtain ⟨⟨t,problem⟩,ht,hvalue⟩ := exists_of_toOption_map hvalue
  obtain ⟨hproblem,hafter⟩ := Prod.mk.inj hvalue
  obtain rfl : problem = none := Option.isNone_iff_eq_none.mp hproblem
  refine ⟨moves,s,t,hs,ht,by decide +kernel,hbefore,hafter,fun htouches => ?_⟩
  have hfirst : (s.voices.notesOf "2")[0]?.map (·.duration) = some (1/2) := by
    rw [← List.getElem?_map, hbefore]
    rfl
  have hlast : (t.voices.notesOf "2")[0]?.map (·.duration) = some 1 := by
    rw [← List.getElem?_map, hafter]
    rfl
  obtain ⟨n,hn,hduration⟩ := Option.map_eq_some_iff.mp hfirst
  obtain ⟨n',hn',hduration'⟩ := Option.map_eq_some_iff.mp hlast
  have hchanged : n'.duration ≠ n.duration := by
    rw [hduration, hduration']
    decide +kernel
  exact absurd (htouches "2" 0 n hn n' hn' (.inr hchanged)) (by decide)

end MusicState

end Notes
end AbcTune
