import AbcTune.Proofs.Music.NoteWriting

/-! # How far a token reaches back

A token writes into one voice, which is the active one behind it, and there it adds notes behind
the others. Three kinds of token also reach back for notes that were written before: a note goes on
from those that were tied, broken rhythm stretches the last note or chord, and the end of a chord
settles the notes of the chord. What they change of these is the start and the duration.
-/
namespace AbcTune

variable {β : Type}

/-! ## Notes of one voice -/

/-- Notes that keep their places, where those at the given places may be timed anew and there may
be more behind them. -/
def Revised (places : List Nat) (notes later : List (Note β)) : Prop :=
  ∀ i, ∀ n ∈ notes[i]?, ∃ n', later[i]? = some n' ∧ n.Retimed n' ∧ (i ∉ places → n' = n)

section Notes

variable {places : List Nat} {notes later last : List (Note β)}

theorem Revised.refl (places : List Nat) (notes : List (Note β)) : Revised places notes notes :=
  fun _ n hn => ⟨n,hn,.refl n,fun _ => rfl⟩

theorem Revised.trans (h : Revised places notes later) (h' : Revised places later last) :
    Revised places notes last := by
  intro i n hn
  obtain ⟨n',hn',hretimed,hkept⟩ := h i n hn
  obtain ⟨n'',hn'',hretimed',hkept'⟩ := h' i n' hn'
  refine ⟨n'',hn'',hretimed.trans hretimed',fun hi => ?_⟩
  rw [hkept' hi, hkept hi]

theorem revised_append (places : List Nat) (notes more : List (Note β)) :
    Revised places notes (notes ++ more) := by
  intro i n hn
  have hi : i < notes.length := (List.getElem?_eq_some_iff.mp hn).1
  exact ⟨n,(List.getElem?_append_left hi).trans hn,.refl n,fun _ => rfl⟩

theorem revised_modifyNotes {v w : Voice β} {f : Note β → Note β}
    (h : v.modifyNotes f places = .ok w) (hf : ∀ n : Note β, n.Retimed (f n)) :
    w.id = v.id ∧ Revised places v.notes w.notes := by
  obtain ⟨notes,rfl,hnotes⟩ := Voice.modifyNotes_ok h
  refine ⟨rfl,fun i n hn => ⟨f^[places.count i] n,?_,.iterate hf _ n,fun hi => ?_⟩⟩
  · rw [hnotes, Option.mem_def.mp hn, Option.map_some]
  · rw [List.count_eq_zero_of_not_mem hi, Function.iterate_zero_apply]

theorem mem_of_tiedNote {v : Voice β} {pitch i : Nat} (h : v.tiedNote pitch places = .ok (some i)) :
    i ∈ places := by
  induction places with
  | nil => cases h
  | cons j rest ih =>
    unfold Voice.tiedNote at h
    split at h
    · cases h
    · split at h
      · obtain rfl : j = i := Option.some.inj (Except.ok.inj h)
        exact List.mem_cons_self
      · exact List.mem_cons_of_mem _ (ih h)

variable [Beats β]

/-- A note that is placed reaches back for those that a tie goes on from. -/
theorem revised_place {v w : Voice β} {m m' : VoiceMemory β} {p : Placement β}
    {part : Option Char} {i : Nat} (h : place v m p part = .ok (w,m',i)) :
    w.id = v.id ∧ Revised m.tiedFrom v.notes w.notes := by
  unfold place at h
  obtain ⟨tied,htied,h⟩ := exists_of_bind_ok h
  split at h
  · next j =>
    obtain ⟨u,hu,h⟩ := exists_of_bind_ok h
    cases h
    obtain ⟨n,hn,rfl⟩ := Voice.modifyNote_ok hu
    have hi : i < v.notes.length := (List.getElem?_eq_some_iff.mp hn).1
    refine ⟨rfl,fun k old hold => ?_⟩
    by_cases hik : i = k
    · subst hik
      obtain rfl : n = old := Option.some.inj (hn.symm.trans hold)
      exact ⟨_,List.getElem?_set_self hi,rfl,fun hout => absurd (mem_of_tiedNote htied) hout⟩
    · exact ⟨old,(List.getElem?_set_ne hik).trans hold,.refl old,fun _ => rfl⟩
  · cases h
    exact ⟨rfl,revised_append _ _ _⟩

/-- The end of a chord reaches back for the notes of the chord. -/
theorem revised_finishChord {v w : Voice β} {velocity : Int} {chord : OpenChord β}
    {multiplier advance : β} {part : Option Char}
    (h : MusicState.finishChord v velocity chord multiplier advance part = .ok w) :
    w.id = v.id ∧ Revised chord.notes v.notes w.notes := by
  obtain ⟨hid,borrowed,hnotes⟩ := MusicState.finishChord_notes h
  refine ⟨hid,fun i n hn => ⟨_,hnotes i n hn,chord.retimed _ _ _ n,fun hi => ?_⟩⟩
  rw [List.count_eq_zero_of_not_mem hi]
  exact chord.retime_zero multiplier borrowed n

end Notes

/-! ## Notes of all voices -/

namespace MusicState

variable {s t : MusicState β} {v w : Voice β} {places : String → List Nat}

/-- The places of the notes of a voice that a token of some kind reaches back for. -/
def reach [Beats β] (s : MusicState β) (kind : TokenKind) (id : String) : List Nat :=
  match kind with
  | .note => (s.memory id).tiedFrom
  | .brokenRhythm => (s.memory id).lastGroup
  | .chordEnd => (s.chord.map (·.notes)).getD []
  | _ => []

/-- From one state to another the notes of the voice that is active then are revised, and those of
all other voices stay. -/
structure Revises (places : String → List Nat) (s t : MusicState β) : Prop where
  others : ∀ id, t.voices.active ≠ some id → t.voices.notesOf id = s.voices.notesOf id
  notes : ∀ id, t.voices.active = some id →
    Revised (places id) (s.voices.notesOf id) (t.voices.notesOf id)

theorem revises_of_notesOf (h : ∀ id, t.voices.notesOf id = s.voices.notesOf id) :
    Revises places s t where
  others id _ := h id
  notes id _ := (h id).symm ▸ .refl (places id) _

/-- The active voice is replaced by what it has become. -/
theorem revises_of_replace {voices : VoiceTable β}
    (hnotes : ∀ id, voices.notesOf id = s.voices.notesOf id)
    (hfound : voices.find? v.id = some v) (hid : w.id = v.id)
    (hrevised : Revised (places v.id) v.notes w.notes) (hactive : t.voices.active = some v.id)
    (ht : ∀ id, t.voices.notesOf id = (voices.modify w.id fun _ => w).notesOf id) :
    Revises places s t := by
  have hw : voices.find? w.id = some v := hid ▸ hfound
  refine ⟨fun id hother => ?_,fun id hsame => ?_⟩
  · have hne : id ≠ w.id := fun heq => hother (heq.trans hid ▸ hactive)
    rw [ht, VoiceTable.notesOf_replace_of_ne hne, hnotes]
  · obtain rfl : v.id = id := Option.some.inj (hactive.symm.trans hsame)
    have hbecome : t.voices.notesOf v.id = w.notes := by
      rw [ht, ← hid]
      exact VoiceTable.notesOf_replace hw
    rw [hbecome, ← hnotes, VoiceTable.notesOf_of_find? hfound]
    exact hrevised

/-- What a token leads to, if it is handled, has the notes at these places revised. -/
def Revising (places : String → List Nat) (s : MusicState β) (r : Except Fault (Handled β)) :
    Prop :=
  ∀ t problem, r = .ok (t,problem) → Revises places s t

theorem revising_accept (h : Revises places s t) : Revising places s t.accept := by
  rintro _ _ ⟨⟩
  exact h

theorem revising_reject (h : Revises places s t) (problem : MusicProblem) :
    Revising places s (t.reject problem) := by
  rintro _ _ ⟨⟩
  exact h

theorem revising_bind {α : Type} {x : Except Fault α} {f : α → Except Fault (Handled β)}
    (h : ∀ a, x = .ok a → Revising places s (f a)) : Revising places s (x >>= f) := by
  intro t problem hok
  obtain ⟨a,ha,hok⟩ := exists_of_bind_ok hok
  exact h a ha t problem hok

theorem revises_self (h : t.voices = s.voices) : Revises places s t :=
  revises_of_notesOf fun _ => h ▸ rfl

variable [Beats β]

/-- Nothing is written, and at most a voice is made active. -/
theorem revises_ensured (h : ∀ id, t.voices.notesOf id = s.voices.ensureActive.notesOf id) :
    Revises places s t :=
  revises_of_notesOf fun id => (h id).trans (VoiceTable.notesOf_ensureActive s.voices id)

/-! ### Tokens that write nothing -/

section Silent

variable (places) (s : MusicState β)

theorem revising_rest (text : Text) (context : MusicContext β) :
    Revising places s (s.rest text context) := by
  unfold MusicState.rest
  split
  · exact revising_reject (revises_self rfl) _
  · split
    · exact revising_reject (revises_self rfl) _
    · exact revising_accept (revises_ensured fun _ => rfl)

theorem revising_multiRest (text : Text) (context : MusicContext β) :
    Revising places s (s.multiRest text context) := by
  unfold MusicState.multiRest
  split
  · exact revising_reject (revises_self rfl) _
  · exact revising_accept (revises_ensured fun _ => rfl)

theorem revising_barLine : Revising places s s.barLine := by
  unfold MusicState.barLine
  split
  · exact revising_accept (revises_self rfl)
  · exact revising_accept (revises_self rfl)

omit [Beats β] in
theorem revising_openGrace : Revising places s s.openGrace := by
  unfold MusicState.openGrace
  split
  · exact revising_reject (revises_self rfl) _
  · exact revising_accept (revises_self rfl)

theorem revising_closeGrace : Revising places s s.closeGrace := by
  unfold MusicState.closeGrace
  split
  · exact revising_reject (revises_self rfl) _
  · exact revising_accept (revises_ensured fun _ => rfl)

omit [Beats β] in
theorem revising_openTuplet (text : Text) (context : MusicContext β) :
    Revising places s (s.openTuplet text context) := by
  unfold MusicState.openTuplet
  split
  · exact revising_reject (revises_self rfl) _
  · split
    · exact revising_accept (revises_self rfl)
    · exact revising_accept (revises_self rfl)

theorem revising_tie : Revising places s s.tie := revising_accept (revises_ensured fun _ => rfl)

theorem revising_openChord : Revising places s s.openChord := by
  unfold MusicState.openChord
  split
  · exact revising_reject (revises_self rfl) _
  · split
    · exact revising_reject (revises_self rfl) _
    · exact revising_accept (revises_ensured fun _ => rfl)

theorem revising_namedDecoration (text : Text) :
    Revising places s (s.namedDecoration text) := by
  unfold MusicState.namedDecoration
  dsimp only
  split
  · exact revising_accept (revises_ensured fun _ => rfl)
  · split
    · exact revising_accept (revises_ensured fun _ => rfl)
    · exact revising_reject (revises_ensured fun _ => rfl) _
  · exact revising_accept (revises_self rfl)

end Silent

/-! ### Tokens that write -/

theorem revising_brokenRhythm (s : MusicState β) (text : Text) :
    Revising (s.reach .brokenRhythm) s (s.brokenRhythm text) := by
  unfold MusicState.brokenRhythm
  split
  · exact revising_reject (revises_self rfl) _
  · next id hactive =>
    dsimp only
    split
    · exact revising_reject (revises_self rfl) _
    · cases hfound : s.voices.find? id with
      | none => exact revising_accept (revises_of_notesOf fun _ => rfl)
      | some v =>
        obtain rfl := VoiceTable.find?_id hfound
        refine revising_bind fun w hw => ?_
        obtain ⟨hid,hrevised⟩ := revised_modifyNotes hw fun _ => rfl
        exact revising_accept
          (revises_of_replace (fun _ => rfl) hfound hid hrevised hactive fun _ => rfl)

theorem revising_addToChord {chord : OpenChord β} (hfound : s.voices.find? v.id = some v)
    (hactive : s.voices.active = some v.id) (written : Int) (nominal : β) :
    Revising (s.reach .note) s (s.addToChord chord v written nominal) := by
  refine revising_bind ?_
  rintro ⟨w,m,i⟩ hplaced
  obtain ⟨hid,hrevised⟩ := revised_place hplaced
  exact revising_accept
    (revises_of_replace (fun _ => rfl) hfound hid hrevised hactive fun _ => rfl)

theorem revising_addSingle (hfound : s.voices.find? v.id = some v)
    (hactive : s.voices.active = some v.id) (written : Int) (nominal : β) :
    Revising (s.reach .note) s (s.addSingle v written nominal) := by
  unfold addSingle
  dsimp only
  generalize nominal * (s.memory v.id).brokenNext.getD 1.0 * Tuplet.scaleAll s.tuplets = advance
  obtain ⟨more,borrowed,hgraces⟩ := placeGraces_eq v (s.memory v.id).velocity
    (s.memory v.id).graces s.voices.cursor advance s.part
  rw [hgraces]
  refine revising_bind ?_
  rintro ⟨w,m,i⟩ hplaced
  obtain ⟨hid,hrevised⟩ := revised_place hplaced
  have hwhole : Revised (s.reach .note v.id) v.notes w.notes :=
    (revised_append _ v.notes more).trans hrevised
  exact revising_accept
    (revises_of_replace (fun _ => rfl) hfound hid hwhole hactive fun _ => rfl)

/-- The accidental of a note is remembered before it is written. -/
theorem Revising.resolved {w : WrittenNote β} {key : Key} {r : Except Fault (Handled β)}
    (h : Revising ((s.resolved w key).reach .note) (s.resolved w key) r) :
    Revising (s.reach .note) s r := by
  intro t problem hok
  have hnotes (id : String) : (s.resolved w key).voices.notesOf id = s.voices.notesOf id :=
    VoiceTable.notesOf_ensureActive s.voices id
  have hreach (id : String) : (s.resolved w key).reach .note id = s.reach .note id := by
    change ((s.resolved w key).memory id).tiedFrom = (s.memory id).tiedFrom
    unfold MusicState.resolved
    by_cases hid : id = s.voices.noteVoice
    · rw [hid, memory_setMemory, (resolve_places _ w key).2]
    · rw [memory_setMemory_of_ne _ _ hid]
      rfl
  obtain ⟨hothers,hrevised⟩ := h t problem hok
  refine ⟨fun id hid => (hothers id hid).trans (hnotes id),fun id hid => ?_⟩
  rw [← hreach id, ← hnotes id]
  exact hrevised id hid

theorem InRange.revising_note (h : s.InRange) (text : Text) (context : MusicContext β) :
    Revising (s.reach .note) s (s.note text context) := by
  cases hread : WrittenNote.read? (β := β) text with
  | none =>
    unfold MusicState.note
    rw [hread]
    exact revising_reject (revises_self rfl) _
  | some w =>
    obtain ⟨v,hv,hid⟩ := h.active.exists_noteVoice
    have hactive : (s.resolved w context.key).voices.active = some v.id :=
      hid ▸ VoiceTable.active_switchTo s.voices s.voices.noteVoice
    have hfound : (s.resolved w context.key).voices.find? v.id = some v := hid ▸ hv
    rw [note_eq context hread hv]
    split
    · exact revising_accept (revises_ensured fun _ => rfl)
    · exact (revising_addToChord hfound hactive _ _).resolved
    · exact (revising_addSingle hfound hactive _ _).resolved

theorem InRange.revising_closeChord (h : s.InRange) (text : Text) :
    Revising (s.reach .chordEnd) s (s.closeChord text) := by
  cases hchord : s.chord with
  | none =>
    unfold MusicState.closeChord
    rw [hchord]
    exact revising_reject (revises_self rfl) _
  | some chord =>
    cases hlength : readLength? (β := β) (text.drop 1) with
    | none =>
      simp only [MusicState.closeChord, hchord, hlength]
      have hdropped : Revises (s.reach .chordEnd) s { s with chord := none } := revises_self rfl
      exact revising_reject hdropped _
    | some multiplier =>
      obtain ⟨v,hv,hid⟩ := h.active.exists_noteVoice
      rw [closeChord_eq hchord hlength hv]
      refine revising_bind fun w hw => ?_
      obtain ⟨hwid,hrevised⟩ := revised_finishChord hw
      have hplaces : s.reach .chordEnd v.id = chord.notes := by simp [reach, hchord]
      have hactive : s.voices.ensureActive.active = some v.id :=
        hid ▸ VoiceTable.active_switchTo s.voices s.voices.noteVoice
      refine revising_accept (revises_of_replace ?_ (hid ▸ hv) hwid ?_ hactive fun _ => rfl)
      · exact VoiceTable.notesOf_ensureActive s.voices
      · rw [hplaces]
        exact hrevised

/-! ## Every token -/

/-- No token reaches farther back than its kind does. -/
theorem InRange.revises (h : s.InRange) {token : Token} {context : MusicContext β}
    {problem : Option MusicProblem} (hok : s.handle token context = .ok (t,problem)) :
    Revises (s.reach token.kind) s t := by
  suffices hrevising : Revising (s.reach token.kind) s (s.handle token context) from
    hrevising t problem hok
  obtain ⟨kind,text,line,column,properties⟩ := token
  cases kind with
  | note => exact h.revising_note text context
  | rest => exact revising_rest _ s text context
  | multiRest => exact revising_multiRest _ s text context
  | bar | repeatStart | repeatEnd | repeatBoth | ending => exact revising_barLine _ s
  | chordStart => exact revising_openChord _ s
  | chordEnd => exact h.revising_closeChord text
  | graceStart => exact revising_openGrace _ s
  | graceEnd => exact revising_closeGrace _ s
  | tuplet => exact revising_openTuplet _ s text context
  | tie => exact revising_tie _ s
  | brokenRhythm => exact revising_brokenRhythm s text
  | decoration => exact revising_accept (revises_self rfl)
  | extendedDecoration => exact revising_namedDecoration _ s text
  | unknown => exact revising_reject (revises_self rfl) _
  | field | inlineField | directive | comment | slurStart | slurEnd | chordSymbol | continuation
  | space => exact revising_accept (revises_self rfl)

/-- Whatever was read before, a token that is handled changes no note of a voice other than the one
that is active behind it. In that voice every note that was there keeps its place, so that new notes
only come behind it. It is the same note as before unless its place is among the tied ones and the
token is a note, among the last group and the token is broken rhythm, or in the open chord and the
token closes it; and then nothing but its start and its duration may differ. -/
theorem run_revises {moves : List (MusicMove β)} {token : Token} {context : MusicContext β}
    {problem : Option MusicProblem} (hrun : initial.run moves = .ok s)
    (hok : s.handle token context = .ok (t,problem)) :
    (∀ id, t.voices.active ≠ some id → t.voices.notesOf id = s.voices.notesOf id) ∧
    ∀ id, t.voices.active = some id → ∀ i, ∀ n ∈ (s.voices.notesOf id)[i]?,
      ∃ n', (t.voices.notesOf id)[i]? = some n' ∧
        n' = { n with start := n'.start, duration := n'.duration } ∧
        (i ∉ s.reach token.kind id → n' = n) := by
  have hrange : s.InRange := inRange_initial.run hrun
  obtain ⟨hothers,hrevised⟩ := hrange.revises hok
  refine ⟨hothers,fun id hid i n hn => ?_⟩
  obtain ⟨n',hn',hretimed,hkept⟩ := hrevised id hid i n hn
  exact ⟨n',hn',hretimed,hkept⟩

/-- A tied note is handed on to a chord, and from the chord to the broken rhythm behind it, which
stretches both of its notes but not the one before. -/
theorem run_revises_tiedChord :
    ∃ (moves : List (MusicMove Rat)) (s t : MusicState Rat), initial.run moves = .ok s ∧
      s.handle ⟨.brokenRhythm,">".toList,1,1,[]⟩ .initial = .ok (t,none) ∧
      t.voices.active = some "1" ∧ s.reach .brokenRhythm "1" = [1,2] ∧
      (s.voices.notesOf "1").map (·.duration) = [1/2,1,1/2] ∧
      (t.voices.notesOf "1").map (·.duration) = [1/2,5/4,3/4] ∧
      t.voices.notesOf "2" = s.voices.notesOf "2" ∧
      ∀ i, ∀ n ∈ (s.voices.notesOf "1")[i]?, ∃ n', (t.voices.notesOf "1")[i]? = some n' ∧
        n' = { n with start := n'.start, duration := n'.duration } ∧ (i ∉ [1,2] → n' = n) := by
  let music (kind : TokenKind) (text : String) : MusicMove Rat :=
    .token ⟨kind,text.toList,1,1,[]⟩ .initial
  let moves : List (MusicMove Rat) := [.voices (.switchTo "2"),music .note "A",
    .voices (.switchTo "1"),music .note "C",music .note "D",music .tie "-",
    music .chordStart "[",music .note "D",music .note "F",music .chordEnd "]"]
  let mark : Token := ⟨.brokenRhythm,">".toList,1,1,[]⟩
  have hrun : ((initial.run moves).toOption.map fun s =>
      (s.reach .brokenRhythm "1",(s.voices.notesOf "1").map (·.duration))) =
      some ([1,2],[1/2,1,1/2]) := by decide +kernel
  have hmark : ((initial.run moves >>= fun s => s.handle mark .initial).toOption.map fun r =>
      (r.2.isNone,r.1.voices.active,(r.1.voices.notesOf "1").map (·.duration))) =
      some (true,some "1",[1/2,5/4,3/4]) := by decide +kernel
  obtain ⟨s,hs,hvalue⟩ := exists_of_toOption_map hrun
  obtain ⟨hreach,hbefore⟩ := Prod.mk.inj hvalue
  obtain ⟨⟨t,problem⟩,ht,hvalue⟩ := exists_of_toOption_map hmark
  rw [hs, ok_bind] at ht
  simp only [Prod.mk.injEq] at hvalue
  obtain ⟨hproblem,hactive,hafter⟩ := hvalue
  obtain rfl : problem = none := Option.isNone_iff_eq_none.mp hproblem
  obtain ⟨hothers,hnotes⟩ := run_revises hs ht
  have hother : t.voices.active ≠ some "2" := by
    rw [hactive]
    decide
  have hrevised := hnotes "1" hactive
  rw [hreach] at hrevised
  exact ⟨moves,s,t,hs,ht,hactive,hreach,hbefore,hafter,hothers "2" hother,hrevised⟩

end MusicState
end AbcTune
