import AbcTune.Proofs.Music.Axis
import AbcTune.Proofs.Music.NoteWriting

/-! # Time without gaps

Notes and rests of a voice that are read by themselves follow one another on the axis: each begins
at the cursor, and a note sounds until the next one begins. A mark of broken rhythm moves the cursor
back or forth and the end of the last note with it, so that this stays so. What the mark takes from
one of two equal notes it gives to the other.
-/
namespace AbcTune

/-- A note or a rest that begins at a beat. -/
structure Beginning where
  isNote : Bool
  start : Rat

/-- Where the notes start and end among notes and rests that follow one another without a gap and
of which the last ends at `stop`. -/
def tiles (stop : Rat) : List Beginning → List (Rat × Rat)
  | [] => []
  | [b] => if b.isNote then [(b.start,stop)] else []
  | b :: next :: rest =>
    (if b.isNote then [(b.start,next.start)] else []) ++ tiles stop (next :: rest)

/-- What is behind the others is all that the end decides about. -/
theorem tiles_concat (stop : Rat) (items : List Beginning) (b : Beginning) :
    tiles stop (items ++ [b]) =
      tiles b.start items ++ if b.isNote then [(b.start,stop)] else [] := by
  induction items with
  | nil => rfl
  | cons first rest ih =>
    cases rest with
    | nil => rfl
    | cons next rest =>
      rw [List.cons_append, List.cons_append, tiles, tiles, List.append_assoc, ← ih]
      rfl

namespace MusicMove

/-- Tokens of notes, rests, tuplets, bar lines, blanks and broken rhythm, and the ends of lines. -/
def IsPlain : MusicMove Rat → Prop
  | .token sign _ => sign.kind ∈ [.note,.rest,.tuplet,.bar,.space,.brokenRhythm]
  | .endLine => True
  | .startPart _ | .voices _ => False

/-- Whether a note or a rest that can be read is a note. -/
def item? : MusicMove Rat → Option Bool
  | .token sign _ =>
    match sign.kind with
    | .note => (WrittenNote.read? (β := Rat) sign.text).map fun _ => true
    | .rest => (readLength? (β := Rat) (sign.text.drop 1)).map fun _ => false
    | _ => none
  | _ => none

/-- The beats of a note as it is written. -/
def writtenBeats? : MusicMove Rat → Option Rat
  | .token sign context =>
    if sign.kind = .note then
      (WrittenNote.read? sign.text).map fun w => context.beats w.length
    else none
  | _ => none

def IsMark : MusicMove Rat → Prop
  | .token sign _ => sign.kind = .brokenRhythm
  | _ => False

end MusicMove

/-! ## Decorations of plain music -/

theorem place_spans {β : Type} [Beats β] {v w : Voice β} {m m' : VoiceMemory β} {p : Placement β}
    {part : Option Char} {i : Nat} (h : place v m p part = .ok (w,m',i)) : m'.spans = m.spans := by
  unfold place at h
  obtain ⟨found,-,h⟩ := exists_of_bind_ok h
  split at h
  · obtain ⟨u,-,h⟩ := exists_of_bind_ok h
    cases h
    rfl
  · cases h
    rfl

namespace MusicState

section Unadorned

variable {β : Type} [Beats β] {s t : MusicState β} {token : Token} {context : MusicContext β}
  {problem : Option MusicProblem}

/-- The voice that notes go to stays the same and gets no decorations. -/
structure Unadorned (s t : MusicState β) : Prop where
  noteVoice : t.voices.noteVoice = s.voices.noteVoice
  decorations : ∀ d ∈ t.decorations, d ∈ s.decorations
  spans : (t.memory s.voices.noteVoice).spans = (s.memory s.voices.noteVoice).spans

theorem Unadorned.refl (s : MusicState β) : Unadorned s s := ⟨rfl,fun _ hd => hd,rfl⟩

theorem unadorned_of_active (hactive : t.voices.active = some s.voices.noteVoice)
    (hdecorations : ∀ d ∈ t.decorations, d ∈ s.decorations) {u : MusicState β} {m : VoiceMemory β}
    (hmemories : t.memories = (u.setMemory s.voices.noteVoice m).memories)
    (hspans : m.spans = (s.memory s.voices.noteVoice).spans) : Unadorned s t where
  noteVoice := VoiceTable.noteVoice_of_active hactive
  decorations := hdecorations
  spans := by
    have hmemory : t.memory s.voices.noteVoice = m := by
      rw [memory, hmemories]
      exact memory_setMemory u s.voices.noteVoice m
    rw [hmemory, hspans]

theorem unadorned_note (h : s.InRange) (hgroup : s.graceGroup = none) (hchord : s.chord = none)
    {text : Text} (hok : s.note text context = .ok (t,problem)) : Unadorned s t := by
  cases hread : WrittenNote.read? (β := β) text with
  | none =>
    rw [MusicState.note, hread] at hok
    cases hok
    exact .refl s
  | some w =>
    obtain ⟨v,hv,hid⟩ := h.active.exists_noteVoice
    obtain ⟨accidentals,haccidentals⟩ := exists_resolve (s.memory s.voices.noteVoice) w context.key
    have hmemory : (s.resolved w context.key).memory v.id =
        { s.memory s.voices.noteVoice with accidentals } := by
      rw [hid, MusicState.resolved, memory_setMemory, haccidentals]
    rw [note_eq context hread hv, hgroup, hchord] at hok
    dsimp only at hok
    unfold MusicState.addSingle at hok
    dsimp only at hok
    rw [hmemory] at hok
    obtain ⟨more,borrowed,hgraces⟩ := placeGraces_eq v (s.memory s.voices.noteVoice).velocity
      (s.memory s.voices.noteVoice).graces (s.resolved w context.key).voices.cursor
      (context.beats w.length * (s.memory s.voices.noteVoice).brokenNext.getD 1.0 *
        Tuplet.scaleAll (s.resolved w context.key).tuplets) (s.resolved w context.key).part
    rw [hgraces] at hok
    obtain ⟨⟨u,m,i⟩,hplace,hok⟩ := exists_of_bind_ok hok
    cases hok
    obtain ⟨hext,-⟩ := place_ok hplace
    have huid : u.id = s.voices.noteVoice := hext.id.trans hid
    have hspans := place_spans hplace
    have hmemories := congrArg (fun id => ((s.resolved w context.key).setMemory id
      { m with
        tiedFrom := [], lastGroup := [i]
        lastAdvance := context.beats w.length *
          (s.memory s.voices.noteVoice).brokenNext.getD 1.0 * Tuplet.scaleAll s.tuplets }).memories)
      huid
    exact unadorned_of_active (VoiceTable.active_switchTo s.voices s.voices.noteVoice)
      (List.forall_mem_nil _) hmemories hspans

theorem unadorned_rest {text : Text} (hok : s.rest text context = .ok (t,problem)) :
    Unadorned s t := by
  unfold MusicState.rest at hok
  split at hok
  · cases hok
    exact .refl s
  · split at hok
    · cases hok
      exact .refl s
    · cases hok
      exact unadorned_of_active (VoiceTable.active_switchTo s.voices s.voices.noteVoice)
        (List.forall_mem_nil _) rfl rfl

theorem unadorned_barLine (hok : s.barLine = .ok (t,problem)) : Unadorned s t := by
  unfold MusicState.barLine at hok
  split at hok
  · cases hok
    exact .refl s
  · next id hactive =>
    cases hok
    obtain rfl := VoiceTable.noteVoice_of_active hactive
    exact unadorned_of_active hactive (fun _ hd => hd) rfl rfl

theorem unadorned_openTuplet {text : Text} (hok : s.openTuplet text context = .ok (t,problem)) :
    Unadorned s t := by
  unfold MusicState.openTuplet at hok
  split at hok
  · cases hok
    exact .refl s
  · split at hok
    · cases hok
      exact ⟨rfl,fun _ hd => hd,rfl⟩
    · cases hok
      exact .refl s

theorem unadorned_brokenRhythm (h : s.InRange) {text : Text}
    (hok : s.brokenRhythm text = .ok (t,problem)) : Unadorned s t := by
  unfold MusicState.brokenRhythm at hok
  split at hok
  · cases hok
    exact .refl s
  · next id hactive =>
    dsimp only at hok
    split at hok
    · cases hok
      exact .refl s
    · obtain ⟨v,hv⟩ := VoiceTable.exists_find? (h.active id hactive)
      rw [hv] at hok
      obtain ⟨w,hw,hok⟩ := exists_of_bind_ok hok
      cases hok
      obtain rfl := VoiceTable.noteVoice_of_active hactive
      exact unadorned_of_active hactive (fun _ hd => hd) rfl rfl

/-- Plain music leaves what decorates the notes to come. -/
theorem unadorned_handle (h : s.InRange) (hgroup : s.graceGroup = none) (hchord : s.chord = none)
    (hkind : token.kind ∈ [.note,.rest,.tuplet,.bar,.space,.brokenRhythm])
    (hok : s.handle token context = .ok (t,problem)) : Unadorned s t := by
  obtain ⟨kind,text,line,column,properties⟩ := token
  simp only [List.mem_cons, List.not_mem_nil, or_false] at hkind
  obtain rfl | rfl | rfl | rfl | rfl | rfl := hkind
  · exact unadorned_note h hgroup hchord hok
  · exact unadorned_rest hok
  · exact unadorned_openTuplet hok
  · exact unadorned_barLine hok
  · cases hok
    exact .refl s
  · exact unadorned_brokenRhythm h hok

end Unadorned

/-! ## What plain music does in time -/

variable {s t u : MusicState Rat} {token : Token} {context : MusicContext Rat}
  {problem : Option MusicProblem}

/-- Nothing waits that would take time from the next note, tie it or cut it short. -/
structure Bare (s : MusicState Rat) : Prop where
  graceGroup : s.graceGroup = none
  chord : s.chord = none
  graces : s.time.graces = []
  tiedFrom : s.time.tiedFrom = []
  whole : s.staccato = false

/-- The note or rest that a move begins, at the cursor. -/
def beginning? (s : MusicState Rat) (m : MusicMove Rat) : Option Beginning :=
  m.item?.map fun isNote => ⟨isNote,s.time.clock⟩

/-- The notes and rests of a run, each with the beat of the cursor where it is read. -/
def begins (s : MusicState Rat) : List (MusicMove Rat) → List Beginning
  | [] => []
  | m :: rest => (s.beginning? m).toList ++
    match s.move m with
    | .ok t => t.begins rest
    | .error _ => []

/-- What a token of plain music does. -/
inductive PlainStep (s t : MusicState Rat) (token : Token) (context : MusicContext Rat) : Prop
  | still (hnone : (MusicMove.token token context).item? = none) (htime : t.time = s.time)
      (htuplets : t.tuplets = (opened? token context).toList ++ s.tuplets)
  | note (w : WrittenNote Rat) (n : Note Rat) (hkind : token.kind = .note)
      (hread : WrittenNote.read? token.text = some w) (hstart : n.start = s.time.clock)
      (hduration : n.duration = s.advanceOf (context.beats w.length))
      (htime : t.time = {
        clock := s.time.clock + s.advanceOf (context.beats w.length)
        notes := s.time.notes ++ [n], graces := [], lastGroup := [s.time.notes.length]
        lastAdvance := s.advanceOf (context.beats w.length), tiedFrom := [], brokenNext := none })
      (htuplets : t.tuplets = Tuplet.countNote s.tuplets)
  | rest (length : Rat) (hkind : token.kind = .rest)
      (hread : readLength? (token.text.drop 1) = some length)
      (htime : t.time = { s.time with
        clock := s.time.clock + s.advanceOf (context.beats length), lastGroup := []
        lastAdvance := s.advanceOf (context.beats length), tiedFrom := [], brokenNext := none })
      (htuplets : t.tuplets = Tuplet.countNote s.tuplets)
  | brokenRhythm (factor next : Rat) (hkind : token.kind = .brokenRhythm)
      (hfactors : brokenFactors token.text = (factor,next)) (hlast : 0 < s.time.lastAdvance)
      (htime : t.time = { s.time with
        clock := s.time.clock + s.time.lastAdvance * (factor - 1)
        notes := changeAt (stretch (s.time.clock - s.time.lastAdvance) factor) s.time.lastGroup
          s.time.notes
        lastAdvance := s.time.lastAdvance * factor, brokenNext := some next })
      (htuplets : t.tuplets = s.tuplets)

/-- Outside chords and grace groups a rest that can be read is never rejected. -/
theorem rest_turns (hrange : s.InRange) (h : s.Bare) {text : Text} {length : Rat}
    (hread : readLength? (text.drop 1) = some length)
    (hok : s.rest text context = .ok (t,problem)) :
    Turns s t { s.time with
      clock := s.time.clock + s.advanceOf (context.beats length), lastGroup := []
      lastAdvance := s.advanceOf (context.beats length), tiedFrom := [], brokenNext := none } ∧
    t.line = { s.line with tuplets := Tuplet.countNote s.tuplets } := by
  have hinside : ¬ (s.graceGroup.isSome || s.chord.isSome) = true := by simp [h.graceGroup, h.chord]
  unfold MusicState.rest at hok
  rw [if_neg hinside, hread] at hok
  dsimp only at hok
  rw [advanceOf_eq] at hok
  cases hok
  have hclock :=
    congrArg (· + s.advanceOf (context.beats length)) (clock_time hrange.active).symm
  exact ⟨turns_of_memory hrange.active rfl hclock rfl rfl,rfl⟩

/-- A plain token leaves nothing waiting. -/
theorem Bare.keep (h : s.Bare) (hun : Unadorned s t) (hgraces : t.time.graces = [])
    (htied : t.time.tiedFrom = []) {tuplets : List Tuplet}
    (hline : t.line = { s.line with tuplets }) : t.Bare := by
  have hgroup : t.graceGroup = none := (congrArg OpenLine.graceGroup hline).trans h.graceGroup
  have hchord : t.chord = none := (congrArg OpenLine.chord hline).trans h.chord
  refine ⟨hgroup,hchord,hgraces,htied,?_⟩
  have hwhole := h.whole
  simp only [staccato, isStaccato, h.chord, hchord, hun.noteVoice, hun.spans, List.any_eq_false,
    List.mem_append, Option.map_none, Option.getD_none, List.not_mem_nil, or_false] at hwhole ⊢
  rintro d (hd | hd)
  · exact hwhole d (.inl (hun.decorations d hd))
  · exact hwhole d (.inr hd)

theorem tupletsBehind_of_item?_none
    (hkind : token.kind ∈ [.note,.rest,.tuplet,.bar,.space,.brokenRhythm])
    (hnone : (MusicMove.token token context).item? = none) :
    s.tupletsBehind token context = (opened? token context).toList ++ s.tuplets := by
  have hcounts : s.counts token = false := by
    obtain ⟨kind,text,line,column,properties⟩ := token
    simp only [List.mem_cons, List.not_mem_nil, or_false] at hkind
    obtain rfl | rfl | rfl | rfl | rfl | rfl := hkind
    · have hread : WrittenNote.read? (β := Rat) text = none := Option.map_eq_none_iff.mp hnone
      simp [counts, hread]
    · have hread : readLength? (β := Rat) (text.drop 1) = none := Option.map_eq_none_iff.mp hnone
      simp [counts, -List.drop_one, hread]
    · rfl
    · rfl
    · rfl
    · rfl
  rw [tupletsBehind, hcounts, if_neg Bool.false_ne_true]

/-- Where nothing waits, a note comes behind the others, at the cursor and for the beats it
takes. -/
theorem Bare.lands (h : s.Bare) {nominal : Rat} {pitch i : Nat} {more notes : List (Note Rat)}
    (hmore : GraceNotes s.time.graces s.time.clock (s.advanceOf nominal) more)
    (hplaced : Lands s.time.tiedFrom pitch (s.noteStart nominal) (s.noteBeats nominal)
      (s.time.notes ++ more) i notes) :
    ∃ n, i = s.time.notes.length ∧ notes = s.time.notes ++ [n] ∧ n.start = s.time.clock ∧
      n.duration = s.advanceOf nominal := by
  have hstart : s.noteStart nominal = s.time.clock := by
    rw [noteStart, h.chord, h.graces, borrowedBeats_nil]
    exact add_zero _
  have hbeats : s.noteBeats nominal = s.advanceOf nominal := by
    rw [noteBeats, h.chord, h.graces, borrowedBeats_nil, h.whole, soundingBeats]
    exact sub_zero _
  rw [hmore.empty h.graces, List.append_nil, hstart, hbeats] at hplaced
  cases hplaced with
  | tied hplace =>
    rw [h.tiedFrom] at hplace
    cases hplace
  | appended hplace hnstart hnduration => exact ⟨_,rfl,rfl,hnstart,hnduration⟩

section Tokens

variable (hrange : s.InRange) (h : s.Bare)
  (hkind : token.kind ∈ [.note,.rest,.tuplet,.bar,.space,.brokenRhythm])
  (hok : s.handle token context = .ok (t,problem))
include hrange h hkind hok

theorem Bare.of_handle (hgraces : t.time.graces = []) (htied : t.time.tiedFrom = [])
    {tuplets : List Tuplet} (hline : t.line = { s.line with tuplets }) : t.Bare :=
  h.keep (unadorned_handle hrange h.graceGroup h.chord hkind hok) hgraces htied hline

theorem Bare.time_handle {x : VoiceTime Rat} (hvoice : t.timeOf s.voices.noteVoice = x) :
    t.time = x :=
  (congrArg t.timeOf
    (unadorned_handle hrange h.graceGroup h.chord hkind hok).noteVoice).trans hvoice

theorem Bare.still (hnone : (MusicMove.token token context).item? = none) (htime : t.time = s.time)
    {tuplets : List Tuplet} (hline : t.line = { s.line with tuplets }) :
    t.Bare ∧ PlainStep s t token context :=
  ⟨h.of_handle hrange hkind hok (htime ▸ h.graces) (htime ▸ h.tiedFrom) hline,.still hnone htime
    ((hrange.of_handle hok).2.1.trans (tupletsBehind_of_item?_none hkind hnone))⟩

theorem Bare.rest (hrest : token.kind = .rest) : t.Bare ∧ PlainStep s t token context := by
  have hhandled : s.rest token.text context = .ok (t,problem) := by
    rw [MusicState.handle, hrest] at hok
    exact hok
  cases hread : readLength? (β := Rat) (token.text.drop 1) with
  | none =>
    have hnone : (MusicMove.token token context).item? = none := by
      rw [MusicMove.item?, hrest, hread]
      rfl
    have hsame : t = s := by
      unfold MusicState.rest at hhandled
      rw [hread] at hhandled
      split at hhandled
      · cases hhandled
        rfl
      · cases hhandled
        rfl
    exact h.still hrange hkind hok hnone (congrArg time hsame) (congrArg line hsame)
  | some length =>
    obtain ⟨hturns,hline⟩ := rest_turns hrange h hread hhandled
    have hnow := h.time_handle hrange hkind hok hturns.voice
    exact ⟨h.of_handle hrange hkind hok (hnow ▸ h.graces) (hnow ▸ rfl) hline,
      .rest length hrest hread hnow (congrArg OpenLine.tuplets hline)⟩

theorem Bare.handle : t.Bare ∧ PlainStep s t token context := by
  by_cases hrest : token.kind = .rest
  · exact h.rest hrange hkind hok hrest
  have hdone {x : VoiceTime Rat} (hturns : Turns s t x) : t.time = x :=
    h.time_handle hrange hkind hok hturns.voice
  have hstill (hnone : (MusicMove.token token context).item? = none) (hstill : Still s t)
      {tuplets : List Tuplet} (hline : t.line = { s.line with tuplets }) :
      t.Bare ∧ PlainStep s t token context :=
    h.still hrange hkind hok hnone (h.time_handle hrange hkind hok (hstill.voice _)) hline
  cases hrange.passage hok with
  | still hquiet hsame hline =>
    refine hstill ?_ hsame hline
    obtain ⟨kind,text,line,column,properties⟩ := token
    cases kind with
    | note => exact congrArg (Option.map fun _ => true) (hquiet.note rfl)
    | rest => exact absurd rfl hrest
    | _ => rfl
  | tuplet u hkind' hread hsame hline =>
    refine hstill ?_ hsame hline
    rw [MusicMove.item?, hkind']
  | single w pitch i more notes hkind' hgroup hchord hread hpitch hmore hplaced hturns hline =>
    have hnow := hdone hturns
    obtain ⟨n,rfl,rfl,hstart,hduration⟩ := h.lands hmore hplaced
    exact ⟨h.of_handle hrange hkind hok (hnow ▸ rfl) (hnow ▸ rfl) hline,
      .note w n hkind' hread hstart hduration hnow (congrArg OpenLine.tuplets hline)⟩
  | brokenRhythm factor next hkind' hfactors hlast hturns hline =>
    have hnow := hdone hturns
    exact ⟨h.of_handle hrange hkind hok (hnow ▸ h.graces) (hnow ▸ h.tiedFrom) hline,
      .brokenRhythm factor next hkind' hfactors hlast hnow (congrArg OpenLine.tuplets hline)⟩
  | rest length hkind' => exact absurd hkind' hrest
  | tie hkind' | graceStart hkind' | graceEnd group hkind' | multiRest bars hkind'
  | chordStart chord hkind' | chordLost hkind' | chordEnd chord multiplier more hkind' =>
    rw [hkind'] at hkind
    simp at hkind
  | graceNote group w written hgroup => cases h.graceGroup.symm.trans hgroup
  | chordNote chord w pitch i notes hkind' hgroup hchord => cases h.chord.symm.trans hchord

end Tokens

/-! ## Tiling -/

/-- A change at the last place only. -/
theorem changeAt_last (f : Note Rat → Note Rat) (notes : List (Note Rat)) (n : Note Rat) :
    changeAt f [notes.length] (notes ++ [n]) = notes ++ [f n] := by
  refine List.ext_getElem? fun i => ?_
  rw [getElem?_changeAt]
  rcases Nat.lt_trichotomy i notes.length with hlt | rfl | hgt
  · have hcount : [notes.length].count i = 0 := List.count_eq_zero.mpr (by simp; omega)
    rw [hcount, List.getElem?_append_left hlt, List.getElem?_append_left hlt]
    exact Option.map_id'
  · simp
  · rw [List.getElem?_eq_none (by simp; omega), List.getElem?_eq_none (by simp; omega)]
    rfl

theorem changeAt_nil (f : Note Rat → Note Rat) (notes : List (Note Rat)) :
    changeAt f [] notes = notes :=
  List.ext_getElem? fun i => (getElem?_changeAt f [] notes i).trans Option.map_id'

/-- The notes behind the first `old` ones fill the time between the notes and rests that have begun,
the last of which goes on to the cursor and is the one that broken rhythm would stretch. -/
structure Tiled (old : Nat) (items : List Beginning) (x : VoiceTime Rat) : Prop where
  long : old ≤ x.notes.length
  tiles : (x.notes.drop old).map (fun n => (n.start,n.stop)) = tiles x.clock items
  last : ∀ b ∈ items.getLast?, b.start + x.lastAdvance = x.clock ∧
    x.lastGroup = if b.isNote then [x.notes.length - 1] else []

section Tiled

variable {old : Nat} {items : List Beginning} {x : VoiceTime Rat}

theorem Tiled.note (h : Tiled old items x) {n : Note Rat} {advance : Rat}
    (hstart : n.start = x.clock) (hduration : n.duration = advance) :
    Tiled old (items ++ [⟨true,x.clock⟩]) {
      clock := x.clock + advance, notes := x.notes ++ [n], graces := []
      lastGroup := [x.notes.length], lastAdvance := advance, tiedFrom := []
      brokenNext := none } where
  long := h.long.trans (by simp)
  tiles := by
    have hstop : n.stop = x.clock + advance := by rw [Note.stop, hstart, hduration]
    rw [List.drop_append_of_le_length h.long, List.map_append, h.tiles, tiles_concat, if_pos rfl,
      List.map_singleton, hstart, hstop]
  last b hb := by
    rw [List.getLast?_concat] at hb
    cases hb
    exact ⟨rfl,by simp⟩

theorem Tiled.rest (h : Tiled old items x) (advance : Rat) :
    Tiled old (items ++ [⟨false,x.clock⟩]) { x with
      clock := x.clock + advance, lastGroup := [], lastAdvance := advance, tiedFrom := []
      brokenNext := none } where
  long := h.long
  tiles := by
    rw [h.tiles, tiles_concat, if_neg Bool.false_ne_true, List.append_nil]
  last b hb := by
    rw [List.getLast?_concat] at hb
    cases hb
    exact ⟨rfl,rfl⟩

/-- A note that has begun last sounds up to the cursor. -/
theorem Tiled.exists_last {b : Beginning} (h : Tiled old (items ++ [b]) x)
    (hnote : b.isNote = true) :
    ∃ front n, x.notes = front ++ [n] ∧ old ≤ front.length ∧ n.start = b.start ∧
      n.stop = x.clock ∧
      (front.drop old).map (fun n => (n.start,n.stop)) = AbcTune.tiles b.start items := by
  have htiles := h.tiles
  rw [tiles_concat, if_pos hnote] at htiles
  rcases List.eq_nil_or_concat' x.notes with hnil | ⟨front,n,hnotes⟩
  · rw [hnil] at htiles
    simp at htiles
  · have hfront : old ≤ front.length := by
      by_contra hshort
      have hdrop : x.notes.drop old = [] := List.drop_eq_nil_of_le (by rw [hnotes]; simp; omega)
      rw [hdrop] at htiles
      simp at htiles
    rw [hnotes, List.drop_append_of_le_length hfront, List.map_append] at htiles
    obtain ⟨hearlier,hspan⟩ := List.append_inj' htiles rfl
    obtain ⟨hstart,hstop⟩ := Prod.mk.inj (List.singleton_inj.mp hspan)
    exact ⟨front,n,hnotes,hfront,hstart,hstop,hearlier⟩

/-- A note that is stretched from its start as a whole. -/
theorem stop_stretch_start {n : Note Rat} {factor advance : Rat}
    (hstop : n.stop = n.start + advance) (hpositive : 0 ≤ advance * factor) :
    (stretch n.start factor n).stop = n.start + advance * factor := by
  have hlength : n.start + (n.stop - n.start) * factor - n.start = advance * factor := by
    rw [hstop]
    ring
  rw [Note.stop, stretch, remaining, hlength, Beats.later_eq_max, Beats.zero_eq,
    max_eq_left hpositive]

/-- Broken rhythm moves the end of the last note together with the cursor. -/
theorem Tiled.brokenRhythm (h : Tiled old items x) {factor : Rat} (hfactor : 0 < factor)
    (hlast : 0 < x.lastAdvance) (brokenNext : Option Rat) :
    Tiled old items { x with
      clock := x.clock + x.lastAdvance * (factor - 1)
      notes := changeAt (stretch (x.clock - x.lastAdvance) factor) x.lastGroup x.notes
      lastAdvance := x.lastAdvance * factor, brokenNext } := by
  have hlength : (changeAt (stretch (x.clock - x.lastAdvance) factor) x.lastGroup x.notes).length =
    x.notes.length := List.length_mapIdx
  have hlong := hlength.symm ▸ h.long
  rcases List.eq_nil_or_concat' items with rfl | ⟨earlier,b,rfl⟩
  · refine ⟨hlong,?_,fun b hb => by cases hb⟩
    have hempty := congrArg List.length h.tiles
    rw [List.length_map, List.length_drop] at hempty
    have hle : x.notes.length ≤ old := Nat.sub_eq_zero_iff_le.mp hempty
    rw [List.drop_eq_nil_of_le (hlength ▸ hle)]
    rfl
  · obtain ⟨hclock,hgroup⟩ := h.last b List.getLast?_concat
    have hnow : b.start + x.lastAdvance * factor = x.clock + x.lastAdvance * (factor - 1) := by
      rw [← hclock]
      ring
    refine ⟨hlong,?_,fun b' hb' => ?_⟩
    · rw [tiles_concat]
      cases hnote : b.isNote with
      | false =>
        have htiles := h.tiles
        rw [hnote, if_neg Bool.false_ne_true] at hgroup
        rw [tiles_concat, hnote] at htiles
        rw [hgroup, changeAt_nil]
        exact htiles
      | true =>
        obtain ⟨front,n,hnotes,hfront,hstart,hstop,hearlier⟩ := h.exists_last hnote
        rw [hnote, if_pos rfl, hnotes, List.length_append, List.length_singleton,
          Nat.add_sub_cancel] at hgroup
        -- the note starts where the last group does, so that it is stretched as a whole
        have horigin : x.clock - x.lastAdvance = n.start := by
          rw [hstart, ← hclock, add_sub_cancel_right]
        have hend : (stretch n.start factor n).stop = x.clock + x.lastAdvance * (factor - 1) := by
          have hadvance : n.stop = n.start + x.lastAdvance := by rw [hstop, ← horigin]; ring
          rw [stop_stretch_start hadvance (mul_pos hlast hfactor).le, hstart, hnow]
        rw [if_pos rfl, hnotes, hgroup, horigin, changeAt_last,
          List.drop_append_of_le_length hfront, List.map_append, hearlier, List.map_singleton,
          hend, ← hstart]
        rfl
    · rw [List.getLast?_concat] at hb'
      cases hb'
      exact ⟨hnow,hlength ▸ hgroup⟩

end Tiled

theorem Bare.endLine (h : s.Bare) : s.endLine.Bare := by
  refine ⟨rfl,rfl,h.graces,h.tiedFrom,?_⟩
  have hwhole := h.whole
  simp only [staccato, isStaccato, MusicState.endLine, List.any_append, Bool.or_eq_false_iff]
    at hwhole ⊢
  exact ⟨⟨rfl,rfl⟩,hwhole.2⟩

/-- Plain music is never in want of a note. -/
theorem exists_handle_plain (hrange : s.InRange)
    (hkind : token.kind ∈ [.note,.rest,.tuplet,.bar,.space,.brokenRhythm])
    (context : MusicContext Rat) : ∃ t problem, s.handle token context = .ok (t,problem) := by
  have hclose : ¬ s.ClosesElsewhere token := by
    rintro ⟨hend,-⟩
    rw [hend] at hkind
    simp at hkind
  obtain ⟨t,problem,hok,-⟩ := hrange.handle hclose context
  exact ⟨t,problem,hok⟩

theorem tiled_move (hrange : s.InRange) (hbare : s.Bare) {old : Nat} {items : List Beginning}
    (htiled : Tiled old items s.time) {m : MusicMove Rat} (hplain : m.IsPlain) :
    ∃ t, s.move m = .ok t ∧ t.InRange ∧ t.Bare ∧
      Tiled old (items ++ (s.beginning? m).toList) t.time := by
  cases m with
  | endLine =>
    exact ⟨s.endLine,rfl,hrange.endLine,hbare.endLine,(List.append_nil items).symm ▸ htiled⟩
  | startPart label => exact False.elim hplain
  | voices operation => exact False.elim hplain
  | token token context =>
    obtain ⟨t,problem,hok⟩ := exists_handle_plain hrange hplain context
    obtain ⟨hbare',hstep⟩ := hbare.handle hrange hplain hok
    refine ⟨t,congrArg (Except.map Prod.fst) hok,(hrange.of_handle hok).1,hbare',?_⟩
    cases hstep with
    | still hnone htime htuplets =>
      rw [beginning?, hnone, htime]
      exact (List.append_nil items).symm ▸ htiled
    | note w n hkind hread hstart hduration htime htuplets =>
      rw [beginning?, MusicMove.item?, hkind, hread, htime]
      exact htiled.note hstart hduration
    | rest length hkind hread htime =>
      rw [beginning?, MusicMove.item?, hkind, hread, htime]
      exact htiled.rest _
    | brokenRhythm factor next hkind hfactors hlast htime htuplets =>
      rw [beginning?, MusicMove.item?, hkind, htime]
      exact (List.append_nil items).symm ▸
        htiled.brokenRhythm (brokenFactors_pos hfactors).1 hlast (some next)

theorem tiled_run (hrange : s.InRange) (hbare : s.Bare) {old : Nat} {items : List Beginning}
    (htiled : Tiled old items s.time) {moves : List (MusicMove Rat)}
    (hplain : ∀ m ∈ moves, m.IsPlain) :
    ∃ t, s.run moves = .ok t ∧ t.InRange ∧ t.Bare ∧ Tiled old (items ++ s.begins moves) t.time := by
  induction moves generalizing s items with
  | nil => exact ⟨s,rfl,hrange,hbare,(List.append_nil items).symm ▸ htiled⟩
  | cons m rest ih =>
    obtain ⟨hm,hrest⟩ := List.forall_mem_cons.mp hplain
    obtain ⟨u,hu,hrange',hbare',htiled'⟩ := tiled_move hrange hbare htiled hm
    obtain ⟨t,ht,hend⟩ := ih hrange' hbare' htiled' hrest
    refine ⟨t,by rw [run, hu, ok_bind, ht],?_⟩
    rw [begins, hu, ← List.append_assoc]
    exact hend

theorem tiled_start (x : VoiceTime Rat) : Tiled x.notes.length [] x where
  long := le_rfl
  tiles := by
    rw [List.drop_length]
    rfl
  last b hb := by cases hb

theorem exists_run_plain (hrange : s.InRange) (hbare : s.Bare) {moves : List (MusicMove Rat)}
    (hplain : ∀ m ∈ moves, m.IsPlain) : ∃ t, s.run moves = .ok t ∧ t.InRange ∧ t.Bare := by
  obtain ⟨t,ht,hrange',hbare',-⟩ := tiled_run hrange hbare (tiled_start s.time) hplain
  exact ⟨t,ht,hrange',hbare'⟩

end MusicState

/-! ## Two notes around a mark of broken rhythm -/

/-- Two notes that are written equally long, with a mark of broken rhythm between them and no other
mark next to them: each mark before has a note or a rest behind it. -/
structure BrokenPair where
  before : List (MusicMove Rat)
  first : MusicMove Rat
  between : List (MusicMove Rat)
  mark : MusicMove Rat
  behind : List (MusicMove Rat)
  second : MusicMove Rat
  beats : Rat
  plain : ∀ m ∈ before ++ between ++ behind, m.IsPlain
  apart : ∀ earlier m later, before = earlier ++ m :: later → m.IsMark →
    ∃ item ∈ later, item.item?.isSome
  idle : ∀ m ∈ between ++ behind, m.item? = none ∧ ¬ m.IsMark
  first_eq : first.writtenBeats? = some beats
  mark_isMark : mark.IsMark
  second_eq : second.writtenBeats? = some beats

namespace BrokenPair

variable (p : BrokenPair)

/-- The music up to the second note. -/
def upToSecond : List (MusicMove Rat) :=
  p.before ++ p.first :: p.between ++ p.mark :: p.behind

def marked : List (MusicMove Rat) := p.upToSecond ++ [p.second]

/-- The same music without the mark. -/
def unmarked : List (MusicMove Rat) := p.before ++ p.first :: p.between ++ p.behind ++ [p.second]

end BrokenPair

/-- The tuplets that are open behind a move that is neither a note nor a rest. -/
def MusicMove.tupletsBehind (open_ : List Tuplet) : MusicMove Rat → List Tuplet
  | .token sign context => (MusicState.opened? sign context).toList ++ open_
  | .endLine => []
  | .startPart _ | .voices _ => open_

theorem MusicState.brokenFactors_sum {text : Text} {factor next : Rat}
    (h : brokenFactors text = (factor,next)) : factor + next = 2 := by
  have htwo : (2.0 : Rat) = 2 := by norm_num
  unfold brokenFactors at h
  dsimp only at h
  rw [htwo] at h
  split at h
  · cases h
    ring
  · cases h
    ring

namespace MusicState

variable {s t u : MusicState Rat} {m : MusicMove Rat} {moves : List (MusicMove Rat)}

/-- Moves that are neither notes nor rests nor marks change nothing but the open tuplets. -/
theorem idle_move (hrange : s.InRange) (hbare : s.Bare) (hplain : m.IsPlain)
    (hidle : m.item? = none ∧ ¬ m.IsMark) :
    ∃ t, s.move m = .ok t ∧ t.InRange ∧ t.Bare ∧ t.time = s.time ∧
      t.tuplets = m.tupletsBehind s.tuplets := by
  obtain ⟨hnone,hmark⟩ := hidle
  cases m with
  | endLine => exact ⟨s.endLine,rfl,hrange.endLine,hbare.endLine,rfl,rfl⟩
  | startPart label => exact False.elim hplain
  | voices operation => exact False.elim hplain
  | token token context =>
    obtain ⟨t,problem,hok⟩ := exists_handle_plain hrange hplain context
    obtain ⟨hbare',hstep⟩ := hbare.handle hrange hplain hok
    refine ⟨t,congrArg (Except.map Prod.fst) hok,(hrange.of_handle hok).1,hbare',?_⟩
    cases hstep with
    | still hnone htime htuplets => exact ⟨htime,htuplets⟩
    | note w n hkind hread =>
      rw [MusicMove.item?, hkind, hread] at hnone
      cases hnone
    | rest length hkind hread =>
      rw [MusicMove.item?, hkind, hread] at hnone
      cases hnone
    | brokenRhythm factor next hkind => exact absurd hkind hmark

theorem idle_run (hrange : s.InRange) (hbare : s.Bare) (hplain : ∀ m ∈ moves, m.IsPlain)
    (hidle : ∀ m ∈ moves, m.item? = none ∧ ¬ m.IsMark) :
    ∃ t, s.run moves = .ok t ∧ t.InRange ∧ t.Bare ∧ t.time = s.time ∧
      t.tuplets = moves.foldl MusicMove.tupletsBehind s.tuplets := by
  induction moves generalizing s with
  | nil => exact ⟨s,rfl,hrange,hbare,rfl,rfl⟩
  | cons m rest ih =>
    obtain ⟨hm,hrest⟩ := List.forall_mem_cons.mp hplain
    obtain ⟨hidle,hidle'⟩ := List.forall_mem_cons.mp hidle
    obtain ⟨u,hu,hrange',hbare',htime,htuplets⟩ := idle_move hrange hbare hm hidle
    obtain ⟨t,ht,hrange'',hbare'',htime',htuplets'⟩ := ih hrange' hbare' hrest hidle'
    refine ⟨t,by rw [run, hu, ok_bind, ht],hrange'',hbare'',htime'.trans htime,?_⟩
    rw [htuplets', htuplets, List.foldl_cons]

theorem note_move (hrange : s.InRange) (hbare : s.Bare) {beats : Rat}
    (hbeats : m.writtenBeats? = some beats) :
    ∃ t, s.move m = .ok t ∧ t.InRange ∧ t.Bare ∧
      t.time.clock = s.time.clock + s.advanceOf beats ∧ t.time.lastAdvance = s.advanceOf beats ∧
      t.time.brokenNext = none := by
  cases m with
  | endLine | startPart | voices => cases hbeats
  | token token context =>
    rw [MusicMove.writtenBeats?] at hbeats
    split at hbeats
    · next hkind =>
      have hplain : token.kind ∈ [.note,.rest,.tuplet,.bar,.space,.brokenRhythm] := by simp [hkind]
      obtain ⟨t,problem,hok⟩ := exists_handle_plain hrange hplain context
      obtain ⟨hbare',hstep⟩ := hbare.handle hrange hplain hok
      refine ⟨t,congrArg (Except.map Prod.fst) hok,(hrange.of_handle hok).1,hbare',?_⟩
      obtain ⟨w,hread,rfl⟩ := Option.map_eq_some_iff.mp hbeats
      cases hstep with
      | still hnone htime htuplets =>
        rw [MusicMove.item?, hkind, hread] at hnone
        cases hnone
      | note w' n hkind' hread' hstart hduration htime =>
        obtain rfl := Option.some.inj (hread.symm.trans hread')
        rw [htime]
        exact ⟨rfl,rfl,rfl⟩
      | rest length hkind' => cases hkind.symm.trans hkind'
      | brokenRhythm factor next hkind' => cases hkind.symm.trans hkind'
    · cases hbeats

/-- A mark is passed over, or it moves the cursor and leaves a factor for the next note. -/
theorem mark_move (hrange : s.InRange) (hbare : s.Bare) (hmark : m.IsMark) :
    ∃ t, s.move m = .ok t ∧ t.InRange ∧ t.Bare ∧ t.tuplets = s.tuplets ∧
      (t.time = s.time ∨ ∃ factor next, factor + next = 2 ∧
        t.time.clock = s.time.clock + s.time.lastAdvance * (factor - 1) ∧
        t.time.brokenNext = some next) := by
  cases m with
  | endLine | startPart | voices => exact False.elim hmark
  | token token context =>
    have hkind : token.kind = .brokenRhythm := hmark
    have hplain : token.kind ∈ [.note,.rest,.tuplet,.bar,.space,.brokenRhythm] := by simp [hkind]
    obtain ⟨t,problem,hok⟩ := exists_handle_plain hrange hplain context
    obtain ⟨hbare',hstep⟩ := hbare.handle hrange hplain hok
    refine ⟨t,congrArg (Except.map Prod.fst) hok,(hrange.of_handle hok).1,hbare',?_⟩
    cases hstep with
    | still hnone htime htuplets =>
      rw [opened?, hkind] at htuplets
      exact ⟨htuplets,.inl htime⟩
    | note w n hkind' => cases hkind.symm.trans hkind'
    | rest length hkind' => cases hkind.symm.trans hkind'
    | brokenRhythm factor next hkind' hfactors hlast htime htuplets =>
      rw [htime]
      exact ⟨htuplets,.inr ⟨factor,next,brokenFactors_sum hfactors,rfl,rfl⟩⟩

/-- A note or a rest takes up the factor of broken rhythm that has waited for it. -/
theorem item_move (hrange : s.InRange) (hbare : s.Bare) (hplain : m.IsPlain)
    (hitem : m.item?.isSome) (hm : s.move m = .ok t) : t.time.brokenNext = none := by
  cases m with
  | endLine | startPart | voices => cases hitem
  | token token context =>
    obtain ⟨⟨u,problem⟩,hok,rfl⟩ := exists_of_map_ok hm
    obtain ⟨-,hstep⟩ := hbare.handle hrange hplain hok
    cases hstep with
    | still hnone =>
      rw [hnone] at hitem
      cases hitem
    | note w n hkind hread hstart hduration htime => exact congrArg VoiceTime.brokenNext htime
    | rest length hkind hread htime => exact congrArg VoiceTime.brokenNext htime
    | brokenRhythm factor next hkind =>
      rw [MusicMove.item?, hkind] at hitem
      cases hitem

/-- A factor of broken rhythm waits only where a mark has no note or rest behind it. -/
theorem brokenNext_run (hrange : s.InRange) (hbare : s.Bare) (hnone : s.time.brokenNext = none)
    (hplain : ∀ m ∈ moves, m.IsPlain)
    (hapart : ∀ earlier m later, moves = earlier ++ m :: later → m.IsMark →
      ∃ item ∈ later, item.item?.isSome) (hrun : s.run moves = .ok t) :
    t.time.brokenNext = none := by
  induction moves using List.reverseRecOn generalizing t with
  | nil => exact Except.ok.inj hrun ▸ hnone
  | append_singleton front m ih =>
    obtain ⟨hfront,hm⟩ := List.forall_mem_append.mp hplain
    have hm := hm m (List.mem_singleton_self m)
    obtain ⟨u,hu,hlast⟩ := exists_of_run_append hrun
    obtain ⟨v,hv,hrange',hbare'⟩ := exists_run_plain hrange hbare hfront
    obtain rfl := Except.ok.inj (hu.symm.trans hv)
    obtain ⟨v,hmove,hend⟩ := exists_of_bind_ok hlast
    obtain rfl := Except.ok.inj hend
    have hmark : ¬ m.IsMark := by
      intro hmark
      obtain ⟨item,hitem,-⟩ := hapart front m [] rfl hmark
      cases hitem
    cases hitem : m.item? with
    | some isNote => exact item_move hrange' hbare' hm (hitem ▸ rfl) hmove
    | none =>
      obtain ⟨w,hw,-,-,htime,-⟩ := idle_move hrange' hbare' hm ⟨hitem,hmark⟩
      obtain rfl := Except.ok.inj (hmove.symm.trans hw)
      rw [htime]
      refine ih hfront (fun earlier m' later heq hmark' => ?_) hu
      obtain ⟨item,hmem,hsome⟩ := hapart earlier m' (later ++ [m]) (by rw [heq]; simp) hmark'
      rcases List.mem_append.mp hmem with hlater | hself
      · exact ⟨item,hlater,hsome⟩
      · rw [List.mem_singleton.mp hself, hitem] at hsome
        cases hsome

/-- Two equal notes under the same tuplets take as long together with a mark between them as they
take without it. -/
theorem brokenPair_clock (hrange : s.InRange) (hbare : s.Bare) (hnone : s.time.brokenNext = none)
    (p : BrokenPair)
    (hsame : ∀ u v, s.run p.before = .ok u → s.run p.upToSecond = .ok v →
      (Tuplet.scaleAll v.tuplets : Rat) = Tuplet.scaleAll u.tuplets) :
    ∃ t t', s.run p.marked = .ok t ∧ s.run p.unmarked = .ok t' ∧ t.time.clock = t'.time.clock := by
  obtain ⟨hplain,hbehind⟩ := List.forall_mem_append.mp p.plain
  obtain ⟨hbefore,hbetween⟩ := List.forall_mem_append.mp hplain
  obtain ⟨hidle,hidle'⟩ := List.forall_mem_append.mp p.idle
  obtain ⟨u,hu,hrangeu,hbareu⟩ := exists_run_plain hrange hbare hbefore
  have hfree := brokenNext_run hrange hbare hnone hbefore p.apart hu
  obtain ⟨v,hv,hrangev,hbarev,hclockv,hadvance,hnext⟩ := note_move hrangeu hbareu p.first_eq
  obtain ⟨w,hw,hrangew,hbarew,htimew,-⟩ := idle_run hrangev hbarev hbetween hidle
  have hrunw : s.run (p.before ++ p.first :: p.between) = .ok w := by
    rw [run_append hu, run, hv, ok_bind, hw]
  -- with the mark
  obtain ⟨x,hx,hrangex,hbarex,htupletsx,hmark⟩ := mark_move hrangew hbarew p.mark_isMark
  obtain ⟨y,hy,hrangey,hbarey,htimey,htupletsy⟩ := idle_run hrangex hbarex hbehind hidle'
  have hruny : s.run p.upToSecond = .ok y := by
    rw [BrokenPair.upToSecond, run_append hrunw, run, hx, ok_bind, hy]
  have hscaley := hsame u y hu hruny
  obtain ⟨t,ht,-,-,hclockt,-⟩ := note_move hrangey hbarey p.second_eq
  -- without the mark
  obtain ⟨z,hz,hrangez,hbarez,htimez,htupletsz⟩ := idle_run hrangew hbarew hbehind hidle'
  have hscalez : (Tuplet.scaleAll z.tuplets : Rat) = Tuplet.scaleAll u.tuplets := by
    rw [htupletsz, ← htupletsx, ← htupletsy, hscaley]
  obtain ⟨t',ht',-,-,hclockt',-⟩ := note_move hrangez hbarez p.second_eq
  refine ⟨t,t',?_,?_,?_⟩
  · rw [BrokenPair.marked, run_append hruny, run, ht, ok_bind, run]
  · rw [BrokenPair.unmarked, List.append_assoc, run_append hrunw, run_append hz, run, ht', ok_bind,
      run]
  · rw [hclockt, hclockt', advanceOf, advanceOf, htimey, htimez, hscaley, hscalez]
    rcases hmark with hstill | ⟨factor,next,hsum,hmoved,hleft⟩
    · rw [hstill]
    · have hfactor : next = 2 - factor := by linarith
      rw [hmoved, hleft, htimew, hadvance, hnext, advanceOf, hfree, Option.getD_none,
        Option.getD_some, hfactor]
      ring

theorem bare_initial : (initial : MusicState Rat).Bare := ⟨rfl,rfl,rfl,rfl,rfl⟩

/-- Plain music of one voice leaves no gap in time. Each note starts at the cursor that it is read
at and ends where the next note or rest begins, or at the cursor, whatever marks of broken rhythm
come later; and two equal notes under the same tuplets that have a mark between them, and no other
next to them, take together the time that they take without it. -/
theorem run_tiles (hrange : s.InRange) (hbare : s.Bare) :
    (∀ moves : List (MusicMove Rat), (∀ m ∈ moves, m.IsPlain) → ∃ t, s.run moves = .ok t ∧
      (t.time.notes.drop s.time.notes.length).map (fun n => (n.start,n.stop)) =
        tiles t.time.clock (s.begins moves)) ∧
    (s.time.brokenNext = none → ∀ p : BrokenPair,
      (∀ u v, s.run p.before = .ok u → s.run p.upToSecond = .ok v →
        (Tuplet.scaleAll v.tuplets : Rat) = Tuplet.scaleAll u.tuplets) →
      ∃ t t', s.run p.marked = .ok t ∧ s.run p.unmarked = .ok t' ∧
        t.time.clock = t'.time.clock) := by
  constructor
  · intro moves hplain
    obtain ⟨t,ht,-,-,htiled⟩ := tiled_run hrange hbare (tiled_start s.time) hplain
    exact ⟨t,ht,htiled.tiles⟩
  · intro hnone p hsame
    exact brokenPair_clock hrange hbare hnone p hsame

/-- Four notes in the time of three: a mark between the first two, and a bar line, two marks and a
blank between the others. -/
theorem run_tiles_twoMarks :
    ∃ (p : BrokenPair) (t t' : MusicState Rat), initial.run p.marked = .ok t ∧
      initial.run p.unmarked = .ok t' ∧ t.time.clock = t'.time.clock ∧
      t.time.notes.map (fun n => (n.start,n.stop)) =
        tiles t.time.clock (initial.begins p.marked) ∧
      t.time.notes.map (fun n => (n.start,n.stop)) =
        [(0,1/6),(1/6,2/3),(2/3,5/4),(5/4,4/3)] := by
  let music (kind : TokenKind) (text : String) : MusicMove Rat :=
    .token ⟨kind,text.toList,1,1,[]⟩ .initial
  let p : BrokenPair := {
    before := [music .tuplet "(3:2:4",music .note "A",music .brokenRhythm "<",music .note "B"]
    first := music .note "C", between := [music .bar "|"]
    mark := music .brokenRhythm ">>", behind := [music .space " "]
    second := music .note "D", beats := 1/2
    plain := by simp [music, MusicMove.IsPlain]
    apart := by
      intro earlier m later heq hmark
      rcases earlier with _ | ⟨a,_ | ⟨b,_ | ⟨c,_ | ⟨d,earlier⟩⟩⟩⟩
      · cases heq
        cases hmark
      · cases heq
        cases hmark
      · cases heq
        exact ⟨music .note "B",List.mem_singleton_self _,by decide +kernel⟩
      · cases heq
        cases hmark
      · simp at heq
    idle := by simp [music, MusicMove.item?, MusicMove.IsMark]
    first_eq := by decide +kernel
    mark_isMark := rfl
    second_eq := by decide +kernel }
  have hplain : ∀ m ∈ p.marked, m.IsPlain := by
    simp [p, BrokenPair.marked, BrokenPair.upToSecond, music, MusicMove.IsPlain]
  have htuplets : ((initial.run p.before).toOption.map (·.tuplets),
      (initial.run p.upToSecond).toOption.map (·.tuplets)) =
        (some [⟨3,2,2⟩],some [⟨3,2,1⟩]) := by decide +kernel
  have hsame (u v : MusicState Rat) (hu : initial.run p.before = .ok u)
      (hv : initial.run p.upToSecond = .ok v) :
      (Tuplet.scaleAll v.tuplets : Rat) = Tuplet.scaleAll u.tuplets := by
    rw [hu, hv] at htuplets
    obtain ⟨hbefore,hup⟩ := Prod.mk.inj htuplets
    have hu : u.tuplets = [⟨3,2,2⟩] := Option.some.inj hbefore
    have hv : v.tuplets = [⟨3,2,1⟩] := Option.some.inj hup
    rw [hu, hv]
    rfl
  have htiles := run_tiles inRange_initial bare_initial
  obtain ⟨t,ht,hnotes⟩ := htiles.1 p.marked hplain
  obtain ⟨u,t',hu,ht',hclock⟩ := htiles.2 rfl p hsame
  obtain rfl := Except.ok.inj (ht.symm.trans hu)
  have hspans : (initial.run p.marked).toOption.map
      (fun t => t.time.notes.map fun n => (n.start,n.stop)) =
        some [(0,1/6),(1/6,2/3),(2/3,5/4),(5/4,4/3)] := by decide +kernel
  rw [ht] at hspans
  exact ⟨p,t,t',ht,ht',hclock,hnotes,Option.some.inj hspans⟩

end MusicState
end AbcTune
