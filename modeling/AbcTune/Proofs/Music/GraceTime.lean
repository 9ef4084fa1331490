import AbcTune.Proofs.Music.NoteWriting
import AbcTune.Proofs.Music.Ordered

/-! # The time of grace notes

Grace notes take their time from the beginning of their principal: half of what they are written as,
but no more than half of the principal. A note gives that time away before it is written, and a
chord when it is closed, after its notes have got their last length; in both cases the grace notes
and the principal fill the principal's time together.
-/
namespace AbcTune

/-- The beats that a grace note is written for. -/
def Grace.writtenBeats (g : Grace Rat) : Rat := g.beats / graceScale

theorem Grace.beats_eq (g : Grace Rat) : g.beats = g.writtenBeats / 2 := by
  have hscale : (graceScale : Rat) = 1 / 2 := by norm_num [graceScale]
  rw [writtenBeats, hscale]
  ring

theorem sum_beats_eq (graces : List (Grace Rat)) :
    Beats.sum (graces.map (·.beats)) = (graces.map Grace.writtenBeats).sum / 2 := by
  induction graces with
  | nil => simp [Beats.sum, Beats.zero_eq]
  | cons g rest ih =>
    rw [List.map_cons, sum_cons, ih, g.beats_eq, List.map_cons, List.sum_cons]
    ring

/-- Grace notes that last take half of what they are written as, or half of the principal if that
is less. -/
theorem borrowedBeats_eq {graces : List (Grace Rat)} (h : ∀ g ∈ graces, 0 < g.beats)
    {principal : Rat} (hprincipal : 0 ≤ principal) :
    borrowedBeats graces principal =
      min ((graces.map Grace.writtenBeats).sum / 2) (principal / 2) := by
  rw [← sum_beats_eq]
  by_cases hne : graces = []
  · subst hne
    have hhalf : 0 ≤ principal / 2 := by linarith
    rw [borrowedBeats_nil, sum_beats_eq, List.map_nil, List.sum_nil, zero_div, min_eq_left hhalf]
  · exact if_neg (sum_beats_pos hne h).not_ge

/-- Grace notes and their principal fill its time, from `start` for `beats`: the grace notes follow
one another, each for the same share of what it is written as, and take half of what they are
written as or half of the time if that is less; the principal sounds from there to the end. -/
structure Fills (graces : List (Grace Rat)) (start beats : Rat) (more : List (Note Rat))
    (principal : Note Rat) : Prop where
  laid : ∃ factor, Laid factor graces start more principal.start
  taken : principal.start - start = min ((graces.map Grace.writtenBeats).sum / 2) (beats / 2)
  stop : principal.stop = start + beats

/-- A principal that starts behind what its grace notes take of it and sounds for the rest. -/
theorem GraceNotes.fills {graces : List (Grace Rat)} {start beats : Rat} {more : List (Note Rat)}
    {principal : Note Rat} (h : GraceNotes graces start beats more)
    (hgraces : ∀ g ∈ graces, 0 < g.beats) (hbeats : 0 ≤ beats)
    (hstart : principal.start = start + borrowedBeats graces beats)
    (hduration : principal.duration = beats - borrowedBeats graces beats) :
    Fills graces start beats more principal where
  laid := hstart ▸ h.laid hgraces
  taken := by rw [hstart, add_sub_cancel_left, borrowedBeats_eq hgraces hbeats]
  stop := by
    rw [Note.stop, hstart, hduration]
    ring

/-! ## Grace notes that wait -/

/-- All grace notes that wait on a line last for some time. -/
structure OpenLine.GracesLast (line : OpenLine Rat) : Prop where
  group : ∀ group ∈ line.graceGroup, ∀ g ∈ group, 0 < g.beats
  chord : ∀ chord ∈ line.chord, ∀ g ∈ chord.graces, 0 < g.beats

namespace MusicState

variable {s t u x : MusicState Rat} {token : Token} {context : MusicContext Rat}

/-- All grace notes that wait last for some time. -/
structure GracesLast (s : MusicState Rat) : Prop where
  voice : ∀ id, ∀ g ∈ (s.timeOf id).graces, 0 < g.beats
  line : s.line.GracesLast

theorem gracesLast_initial : (initial : MusicState Rat).GracesLast :=
  ⟨fun _ => List.forall_mem_nil _,forall_mem_none,forall_mem_none⟩

theorem GracesLast.passage (h : s.GracesLast) (hunit : 0 < context.unitLength)
    (hpassage : Passage s t token context) : t.GracesLast := by
  have hnow : ∀ g ∈ s.time.graces, 0 < g.beats := h.voice _
  have hstill (hstill : Still s t) (hline : t.line.GracesLast) : t.GracesLast :=
    ⟨hstill.forall (P := fun x => ∀ g ∈ x.graces, 0 < g.beats) h.voice,hline⟩
  have hturns {x : VoiceTime Rat} (hturns : Turns s t x) (hx : ∀ g ∈ x.graces, 0 < g.beats)
      (hline : t.line.GracesLast) : t.GracesLast :=
    ⟨hturns.forall (P := fun x => ∀ g ∈ x.graces, 0 < g.beats) h.voice hx,hline⟩
  cases hpassage with
  | still hquiet hsame hline => exact hstill hsame (hline ▸ h.line)
  | tuplet opened hkind hread hsame hline =>
    exact hstill hsame (hline ▸ ⟨h.line.group,h.line.chord⟩)
  | tie hkind hmoved hline | multiRest bars hkind hread hmoved hline
  | brokenRhythm factor next hkind hfactors hlast hmoved hline =>
    exact hturns hmoved hnow (hline ▸ h.line)
  | graceStart hkind hsame hline =>
    refine hstill hsame (hline ▸ ⟨?_,h.line.chord⟩)
    rintro group ⟨⟩ g hg
    exact absurd hg List.not_mem_nil
  | graceNote group w written hgroup hread hsame hline =>
    refine hstill hsame (hline ▸ ⟨?_,h.line.chord⟩)
    rintro longer ⟨⟩ g hg
    rcases List.mem_append.mp hg with hg | hg
    · exact h.line.group group hgroup g hg
    · rw [List.mem_singleton.mp hg]
      exact mul_pos (MusicContext.beats_pos hunit (WrittenNote.read?_pos hread))
        (by norm_num [graceScale])
  | graceEnd group hkind hgroup hmoved hline =>
    exact hturns hmoved (List.forall_mem_append.mpr ⟨hnow,h.line.group group hgroup⟩)
      (hline ▸ ⟨forall_mem_none,h.line.chord⟩)
  | rest length hkind hnone hread hmoved hline =>
    exact hturns hmoved hnow (hline ▸ ⟨h.line.group,h.line.chord⟩)
  | single w pitch i more notes hkind hgroup hnone hread hpitch hmore hplaced hmoved hline =>
    exact hturns hmoved (List.forall_mem_nil _) (hline ▸ ⟨h.line.group,h.line.chord⟩)
  | chordStart chord hkind hnone hstart hnotes hfirst hfactor hgraces hmoved hline =>
    refine hturns hmoved (List.forall_mem_nil _) (hline ▸ ⟨h.line.group,?_⟩)
    rintro opened ⟨⟩
    exact hgraces ▸ hnow
  | chordNote chord w pitch i notes hkind hgroup hchord hread hpitch hplaced hmoved hline =>
    refine hturns hmoved hnow (hline ▸ ⟨h.line.group,?_⟩)
    rintro longer ⟨⟩
    exact h.line.chord chord hchord
  | chordLost hkind hread hsame hline => exact hstill hsame (hline ▸ ⟨h.line.group,forall_mem_none⟩)
  | chordEnd chord multiplier more hkind hchord hread hplaces hmore hmoved hline =>
    exact hturns hmoved hnow (hline ▸ ⟨h.line.group,forall_mem_none⟩)

theorem GracesLast.move (h : s.GracesLast) (hrange : s.InRange) {m : MusicMove Rat}
    (hforward : m.Forward) (hm : s.move m = .ok t) : t.GracesLast := by
  cases m with
  | token token context =>
    obtain ⟨⟨u,problem⟩,hok,rfl⟩ := exists_of_map_ok hm
    exact h.passage hforward (hrange.passage hok)
  | endLine =>
    obtain rfl := Except.ok.inj hm
    exact ⟨h.voice,forall_mem_none,forall_mem_none⟩
  | startPart label =>
    obtain rfl := Except.ok.inj hm
    exact ⟨h.voice,h.line⟩
  | voices operation =>
    obtain rfl := Except.ok.inj hm
    refine ⟨fun id => ?_,h.line⟩
    rw [timeOf_apply]
    exact h.voice id

/-- What runs with positive unit lengths lead to: places in range, times that are not negative, and
grace notes that last. -/
structure Timed (s : MusicState Rat) : Prop where
  range : s.InRange
  axis : s.OnAxis
  graces : s.GracesLast

theorem Timed.run (h : s.Timed) {moves : List (MusicMove Rat)} (hforward : ∀ m ∈ moves, m.Forward)
    (hrun : s.run moves = .ok t) : t.Timed := by
  refine (along_of_forall hforward).induction h (fun s t m hs hm ht => ?_) hrun
  exact ⟨hs.range.move ht,hs.axis.move hs.range hm ht,hs.graces.move hs.range hm ht⟩

theorem timed_initial : (initial : MusicState Rat).Timed :=
  ⟨inRange_initial,onAxis_initial,gracesLast_initial⟩

/-! ## A note by itself -/

/-- The note is written by itself and not into one that a tie goes on from. -/
def Untied (s : MusicState Rat) (w : WrittenNote Rat) (key : Key) : Prop :=
  ∀ pitch ∈ s.pitchOf w key, tiedPlace? s.time.notes pitch s.time.tiedFrom = none

theorem Turns.time {y : VoiceTime Rat} (h : Turns s t y) : t.time = y :=
  (congrArg t.timeOf (VoiceTable.noteVoice_of_active h.active)).trans h.voice

/-- A note by itself fills its time with the grace notes that wait for it. -/
theorem Timed.single_fills (h : s.Timed) (hunit : 0 < context.unitLength) {w : WrittenNote Rat}
    (hkind : token.kind = .note) (hread : WrittenNote.read? token.text = some w)
    (hgroup : s.graceGroup = none) (hchord : s.chord = none) (hwhole : s.staccato = false)
    (huntied : s.Untied w context.key) :
    ∃ t more n, s.handle token context = .ok (t,none) ∧
      t.time.notes = s.time.notes ++ more ++ [n] ∧
      Fills s.time.graces s.time.clock (s.advanceOf (context.beats w.length)) more n ∧
      t.time.clock = s.time.clock + s.advanceOf (context.beats w.length) := by
  obtain ⟨t,hnote,-,-⟩ := h.range.note_ok hread context
  have hok : s.handle token context = .ok (t,none) := (handle_note hkind context).trans hnote
  have hbeats := MusicContext.beats_pos hunit (WrittenNote.read?_pos hread)
  have hadvance := h.axis.advanceOf_nonneg hbeats.le
  cases h.range.passage hok with
  | single w' pitch i more notes hkind' hgroup' hchord' hread' hpitch hmore hplaced hturns hline =>
    obtain rfl := Option.some.inj (hread.symm.trans hread')
    have hnone := huntied pitch hpitch
    rw [← tiedPlace?_append h.range.tiedFrom_time more] at hnone
    cases hplaced with
    | tied hplace => cases hnone.symm.trans hplace
    | @appended n hplace hstart hduration =>
      rw [noteStart, hchord] at hstart
      rw [noteBeats, hchord, hwhole] at hduration
      refine ⟨t,more,n,hok,congrArg VoiceTime.notes hturns.time,?_,
        congrArg VoiceTime.clock hturns.time⟩
      exact hmore.fills (h.graces.voice _) hadvance hstart hduration
  | still hquiet => cases (hquiet.note hkind).symm.trans hread
  | graceNote group w written hgroup' => cases hgroup.symm.trans hgroup'
  | chordNote chord w pitch i notes hkind' hgroup' hchord' => cases hchord.symm.trans hchord'
  | tuplet opened hkind' | tie hkind' | graceStart hkind' | graceEnd group hkind'
  | rest length hkind' | multiRest bars hkind' | chordStart chord hkind' | chordLost hkind'
  | chordEnd chord multiplier more hkind' | brokenRhythm factor next hkind' =>
    cases hkind.symm.trans hkind'

end MusicState

/-! ## A chord -/

/-- Tokens that do not close an open chord. -/
def MusicMove.IsInner : MusicMove Rat → Prop
  | .token sign _ => sign.kind ≠ .chordEnd
  | _ => False

/-- Moves that are neither rests of whole bars nor marks of broken rhythm, which move the cursor
even inside a chord. -/
def MusicMove.LeavesCursor : MusicMove Rat → Prop
  | .token sign _ => sign.kind ≠ .multiRest ∧ sign.kind ≠ .brokenRhythm
  | _ => True

theorem Lands.length_le {tied : List Nat} {pitch i : Nat} {start beats : Rat}
    {notes notes' : List (Note Rat)} (h : Lands tied pitch start beats notes i notes') :
    notes.length ≤ notes'.length := by
  cases h with
  | tied hplace hn => rw [List.length_set]
  | appended hplace hstart hduration => simp

namespace MusicState

variable {s t u x : MusicState Rat} {token : Token} {context : MusicContext Rat} {id : String}
  {problem : Option MusicProblem}

/-- What a token does that does not close the open chord: it leaves chord and notes alone, or
stretches the last notes before the chord, or writes a note of the chord. -/
inductive Inner (s t : MusicState Rat) (token : Token) (context : MusicContext Rat) : Prop
  | keep (hchord : t.chord = s.chord) (hnotes : t.time.notes = s.time.notes)
      (hplaces : ∀ i ∈ t.time.lastGroup ++ t.time.tiedFrom,
        i ∈ s.time.lastGroup ++ s.time.tiedFrom)
      (hclock : token.kind ≠ .multiRest → t.time.clock = s.time.clock)
  | stretched (f : Note Rat → Note Rat) (hkind : token.kind = .brokenRhythm)
      (hchord : t.chord = s.chord)
      (hnotes : t.time.notes = changeAt f s.time.lastGroup s.time.notes)
      (hplaces : t.time.lastGroup ++ t.time.tiedFrom = s.time.lastGroup ++ s.time.tiedFrom)
  | note (chord : OpenChord Rat) (w : WrittenNote Rat) (pitch i : Nat)
      (hread : WrittenNote.read? token.text = some w) (hchord : s.chord = some chord)
      (hpitch : s.pitchOf w context.key = some pitch)
      (hplaced : Lands s.time.tiedFrom pitch (s.noteStart (context.beats w.length))
        (s.noteBeats (context.beats w.length)) s.time.notes i t.time.notes)
      (hafter : t.chord = some { chord with
        notes := chord.notes ++ [i]
        firstAdvance := chord.firstAdvance <|> some (context.beats w.length * chord.factor) })
      (hplaces : t.time.lastGroup ++ t.time.tiedFrom = s.time.lastGroup ++ s.time.tiedFrom)
      (hclock : t.time.clock = s.time.clock)

theorem inner_of_passage (hactive : s.voices.active = some id) (hopen : s.chord.isSome)
    (hkind : token.kind ≠ .chordEnd) (hpassage : Passage s t token context) :
    t.voices.active = some id ∧ Inner s t token context := by
  obtain ⟨chord,hchord⟩ := Option.isSome_iff_exists.mp hopen
  have hid := VoiceTable.noteVoice_of_active hactive
  have hkeep (hstill : Still s t) (hsame : t.chord = s.chord) :
      t.voices.active = some id ∧ Inner s t token context := by
    have hactive' := hstill.active id hactive
    have htime : t.time = s.time := by
      rw [time, VoiceTable.noteVoice_of_active hactive', hstill.voice, time, hid]
    exact ⟨hactive',.keep hsame (htime ▸ rfl) (fun _ hi => htime ▸ hi) fun _ => htime ▸ rfl⟩
  have hmoved {y : VoiceTime Rat} (hturns : Turns s t y) : t.voices.active = some id :=
    hturns.active.trans (congrArg some hid)
  cases hpassage with
  | still hquiet hstill hline | tuplet opened hkind' hread hstill hline
  | graceStart hkind' hstill hline | graceNote group w written hgroup hread hstill hline =>
    exact hkeep hstill (congrArg OpenLine.chord hline)
  | tie hkind' hturns hline =>
    refine ⟨hmoved hturns,.keep (congrArg OpenLine.chord hline) (hturns.time ▸ rfl) ?_
      fun _ => hturns.time ▸ rfl⟩
    rw [hturns.time]
    intro i hi
    rw [List.mem_append, or_self] at hi
    exact List.mem_append_left _ hi
  | graceEnd group hkind' hgroup hturns hline =>
    exact ⟨hmoved hturns,.keep (congrArg OpenLine.chord hline) (hturns.time ▸ rfl)
      (hturns.time ▸ fun _ hi => hi) fun _ => hturns.time ▸ rfl⟩
  | multiRest bars hkind' hread hturns hline =>
    exact ⟨hmoved hturns,.keep (congrArg OpenLine.chord hline) (hturns.time ▸ rfl)
      (hturns.time ▸ List.forall_mem_nil _) (absurd hkind')⟩
  | brokenRhythm factor next hkind' hfactors hlast hturns hline =>
    exact ⟨hmoved hturns,.stretched _ hkind' (congrArg OpenLine.chord hline)
      (congrArg VoiceTime.notes hturns.time) (hturns.time ▸ rfl)⟩
  | chordNote opened w pitch i notes hkind' hgroup hsome hread hpitch hplaced hturns hline =>
    refine ⟨hmoved hturns,.note opened w pitch i hread hsome hpitch ?_
      (congrArg OpenLine.chord hline) (hturns.time ▸ rfl) (hturns.time ▸ rfl)⟩
    rw [hturns.time]
    exact hplaced
  | rest length hkind' hnone | single w pitch i more notes hkind' hgroup hnone
  | chordStart opened hkind' hnone => cases hchord.symm.trans hnone
  | chordLost hkind' | chordEnd opened multiplier more hkind' => exact absurd hkind' hkind

/-- A chord is open in the active voice, with its start, its factor and its grace notes; it has no
length before it has a note, and its notes are among those of the voice. -/
structure Opened (start factor : Rat) (graces : List (Grace Rat)) (s : MusicState Rat) : Prop where
  range : s.InRange
  active : s.voices.active.isSome
  chord : ∃ chord, s.chord = some chord ∧ chord.start = start ∧ chord.factor = factor ∧
    chord.graces = graces ∧ (chord.notes = [] → chord.firstAdvance = none) ∧
    ∀ i ∈ chord.notes, i < s.time.notes.length

/-- The first note of the open chord stands at a place that no other note of the chord has got and
that nothing else changes. -/
structure Led (first : Nat) (advance : Rat) (n : Note Rat) (s : MusicState Rat) : Prop where
  chord : ∃ chord rest, s.chord = some chord ∧ chord.notes = first :: rest ∧ first ∉ rest ∧
    chord.firstAdvance = some advance
  behind : ∀ i ∈ s.time.lastGroup ++ s.time.tiedFrom, i < first
  note : s.time.notes[first]? = some n

section Chords

variable {start factor advance : Rat} {graces : List (Grace Rat)} {first : Nat} {n : Note Rat}

theorem Opened.step (h : Opened start factor graces s) (hrange : t.InRange)
    (hactive : t.voices.active.isSome) (hinner : Inner s t token context) :
    Opened start factor graces t := by
  obtain ⟨chord,hchord,hstart,hfactor,hgraces,hfirst,hnotes⟩ := h.chord
  refine ⟨hrange,hactive,?_⟩
  cases hinner with
  | keep hsame hkept =>
    exact ⟨chord,hsame.trans hchord,hstart,hfactor,hgraces,hfirst,hkept ▸ hnotes⟩
  | stretched f hkind hsame hchanged =>
    have hlength : t.time.notes.length = s.time.notes.length :=
      (congrArg List.length hchanged).trans List.length_mapIdx
    exact ⟨chord,hsame.trans hchord,hstart,hfactor,hgraces,hfirst,hlength ▸ hnotes⟩
  | note opened w pitch i hread hsome hpitch hplaced hafter =>
    obtain rfl := Option.some.inj (hchord.symm.trans hsome)
    refine ⟨_,hafter,hstart,hfactor,hgraces,fun hnil => absurd hnil (by simp),fun j hj => ?_⟩
    rcases List.mem_append.mp hj with hj | hj
    · exact (hnotes j hj).trans_le hplaced.length_le
    · obtain ⟨m,hm,-⟩ := hplaced.stop
      exact List.mem_singleton.mp hj ▸ (List.getElem?_eq_some_iff.mp hm).1

theorem Led.step (h : Led first advance n s) (hinner : Inner s t token context) :
    Led first advance n t := by
  obtain ⟨chord,rest,hchord,hnotes,hrest,hadvance⟩ := h.chord
  cases hinner with
  | keep hsame hkept hplaces =>
    exact ⟨⟨chord,rest,hsame.trans hchord,hnotes,hrest,hadvance⟩,
      fun i hi => h.behind i (hplaces i hi),hkept ▸ h.note⟩
  | stretched f hkind hsame hchanged hplaces =>
    refine ⟨⟨chord,rest,hsame.trans hchord,hnotes,hrest,hadvance⟩,hplaces ▸ h.behind,?_⟩
    have hcount : s.time.lastGroup.count first = 0 := List.count_eq_zero_of_not_mem fun hmem =>
      (h.behind first (List.mem_append_left _ hmem)).false
    rw [hchanged, getElem?_changeAt, hcount, h.note]
    rfl
  | note opened w pitch i hread hsome hpitch hplaced hafter hplaces =>
    obtain rfl := Option.some.inj (hchord.symm.trans hsome)
    have hne : first ≠ i := by
      rw [hplaced.place_eq]
      cases hplace : tiedPlace? s.time.notes pitch s.time.tiedFrom with
      | some j => exact (h.behind j (List.mem_append_right _ (exists_of_tiedPlace? hplace).1)).ne'
      | none => exact (List.getElem?_eq_some_iff.mp h.note).1.ne
    refine ⟨⟨_,rest ++ [i],hafter,by rw [hnotes]; rfl,?_,by rw [hadvance]; rfl⟩,
      hplaces ▸ h.behind,?_⟩
    · rw [List.mem_append, List.mem_singleton]
      exact not_or.mpr ⟨hrest,hne⟩
    · rw [hplaced.others hne, h.note]

theorem inner_move (h : Opened start factor graces s) {m : MusicMove Rat} (hm : m.IsInner) :
    ∃ t, s.move m = .ok t ∧ Opened start factor graces t ∧
      (∀ first advance n, Led first advance n s → Led first advance n t) ∧
      (m.LeavesCursor → t.time.clock = s.time.clock) := by
  cases m with
  | endLine | startPart | voices => exact False.elim hm
  | token token context =>
    obtain ⟨id,hactive⟩ := Option.isSome_iff_exists.mp h.active
    have hopen : s.chord.isSome := by
      obtain ⟨chord,hchord,-⟩ := h.chord
      exact hchord ▸ rfl
    obtain ⟨t,problem,hok,-⟩ := h.range.handle (fun hclose => hm hclose.1) context
    obtain ⟨hactive',hinner⟩ := inner_of_passage hactive hopen hm (h.range.passage hok)
    refine ⟨t,congrArg (Except.map Prod.fst) hok,
      h.step (h.range.of_handle hok).1 (hactive' ▸ rfl) hinner,
      fun _ _ _ hled => hled.step hinner,fun ⟨hrest,hmark⟩ => ?_⟩
    cases hinner with
    | keep hchord hnotes hplaces hclock => exact hclock hrest
    | stretched f hkind => exact absurd hkind hmark
    | note chord w pitch i hread hchord hpitch hplaced hafter hplaces hclock => exact hclock

theorem inner_run (h : Opened start factor graces s) {moves : List (MusicMove Rat)}
    (hmoves : ∀ m ∈ moves, m.IsInner) :
    ∃ t, s.run moves = .ok t ∧ Opened start factor graces t ∧
      (∀ first advance n, Led first advance n s → Led first advance n t) ∧
      ((∀ m ∈ moves, m.LeavesCursor) → t.time.clock = s.time.clock) := by
  induction moves generalizing s with
  | nil => exact ⟨s,rfl,h,fun _ _ _ hled => hled,fun _ => rfl⟩
  | cons m rest ih =>
    obtain ⟨hm,hrest⟩ := List.forall_mem_cons.mp hmoves
    obtain ⟨u,hu,hopen,hled,hclock⟩ := inner_move h hm
    obtain ⟨t,ht,hopen',hled',hclock'⟩ := ih hopen hrest
    refine ⟨t,by rw [run, hu, ok_bind, ht],hopen',
      fun first advance n hs => hled' first advance n (hled first advance n hs),fun hleaves => ?_⟩
    obtain ⟨hfirst,hlater⟩ := List.forall_mem_cons.mp hleaves
    exact (hclock' hlater).trans (hclock hfirst)

/-- A chord takes the grace notes that wait, and starts at the cursor. -/
theorem opened_of_chordStart (hrange : s.InRange) (hkind : token.kind = .chordStart)
    (hchord : s.chord = none) (hgroup : s.graceGroup = none)
    (hok : s.handle token context = .ok (t,problem)) :
    Opened s.time.clock (s.advanceOf 1) s.time.graces t ∧ t.time.clock = s.time.clock := by
  have hrange' := (hrange.of_handle hok).1
  cases hrange.passage hok with
  | chordStart chord hkind' hnone hstart hnotes hfirst hfactor hgraces hturns hline =>
    have hopen : t.chord = some chord := congrArg OpenLine.chord hline
    refine ⟨⟨hrange',hturns.active ▸ rfl,chord,hopen,hstart,hfactor,hgraces,fun _ => hfirst,?_⟩,
      hturns.time ▸ rfl⟩
    exact hnotes ▸ List.forall_mem_nil _
  | still hquiet =>
    rcases hquiet.chordStart hkind with hsome | hsome
    · rw [hchord] at hsome
      cases hsome
    · rw [hgroup] at hsome
      cases hsome
  | graceNote group w written hsome => cases hgroup.symm.trans hsome
  | tuplet opened hkind' | tie hkind' | graceStart hkind' | graceEnd group hkind'
  | rest length hkind' | multiRest bars hkind' | single w pitch i more notes hkind'
  | chordNote chord w pitch i notes hkind' | chordLost hkind'
  | chordEnd chord multiplier more hkind' | brokenRhythm factor next hkind' =>
    cases hkind.symm.trans hkind'

/-- The first note of a chord starts with the chord and gives it its length. -/
theorem Opened.firstNote (h : Opened start factor graces s)
    (hnone : s.chord.map (·.notes) = some []) (hgroup : s.graceGroup = none) {w : WrittenNote Rat}
    (hkind : token.kind = .note) (hread : WrittenNote.read? token.text = some w)
    (hwhole : s.staccato = false) (huntied : s.Untied w context.key) :
    ∃ t n, s.handle token context = .ok (t,none) ∧ Opened start factor graces t ∧
      Led s.time.notes.length (context.beats w.length * factor) n t ∧ n.start = start ∧
      n.duration = context.beats w.length * factor ∧ t.time.clock = s.time.clock := by
  obtain ⟨chord,hchord,hstart,hfactor,hgraces,hfirst,hnotes⟩ := h.chord
  rw [hchord, Option.map_some, Option.some_inj] at hnone
  obtain ⟨id,hactive⟩ := Option.isSome_iff_exists.mp h.active
  obtain ⟨t,hnote,-,-⟩ := h.range.note_ok hread context
  have hok : s.handle token context = .ok (t,none) := (handle_note hkind context).trans hnote
  have hpassage := h.range.passage hok
  obtain ⟨hactive',hinner⟩ := inner_of_passage hactive (hchord ▸ rfl) (hkind ▸ nofun) hpassage
  have hopened := h.step (h.range.of_handle hok).1 (hactive' ▸ rfl) hinner
  cases hpassage with
  | chordNote opened w' pitch i notes hkind' hgroup' hsome hread' hpitch hplaced hturns hline =>
    obtain rfl := Option.some.inj (hread.symm.trans hread')
    obtain rfl := Option.some.inj (hchord.symm.trans hsome)
    have htime := hturns.time
    cases hplaced with
    | tied hplace => cases (huntied pitch hpitch).symm.trans hplace
    | @appended n hplace hnstart hnduration =>
      rw [noteStart, hchord] at hnstart
      rw [noteBeats, hchord, hwhole] at hnduration
      have hled : Led s.time.notes.length (context.beats w.length * factor) n t := by
        refine ⟨⟨_,[],congrArg OpenLine.chord hline,?_,List.not_mem_nil,?_⟩,?_,?_⟩
        · rw [hnone]
          rfl
        · rw [hfirst hnone, hfactor]
          rfl
        · rw [htime]
          exact List.forall_mem_append.mpr ⟨h.range.lastGroup _,h.range.tiedFrom_time⟩
        · rw [htime]
          exact List.getElem?_concat_length
      exact ⟨t,n,hok,hopened,hled,hnstart.trans hstart,
        hnduration.trans (congrArg (context.beats w.length * ·) hfactor),htime ▸ rfl⟩
  | still hquiet => cases (hquiet.note hkind).symm.trans hread
  | graceNote group w written hsome => cases hgroup.symm.trans hsome
  | single w pitch i more notes hkind' hgroup' hnone' => cases hchord.symm.trans hnone'
  | tuplet opened hkind' | tie hkind' | graceStart hkind' | graceEnd group hkind'
  | rest length hkind' | multiRest bars hkind' | chordStart chord hkind' | chordLost hkind'
  | chordEnd chord multiplier more hkind' | brokenRhythm factor next hkind' =>
    cases hkind.symm.trans hkind'

/-- A note of a chord that has got its last length and is moved behind the grace notes of the chord
fills the chord's time with them. -/
theorem fills_closed {chord : OpenChord Rat} {more : List (Note Rat)} {beats : Rat}
    (hmore : GraceNotes chord.graces n.start beats more) (hgraces : ∀ g ∈ chord.graces, 0 < g.beats)
    (hbeats : 0 ≤ beats) (hduration : n.duration = beats) :
    Fills chord.graces n.start beats more
      (if chord.graces.isEmpty then n else n.delay (borrowedBeats chord.graces beats)) := by
  split
  · next hempty =>
    have hnone : borrowedBeats chord.graces beats = 0 := by
      rw [List.isEmpty_iff.mp hempty, borrowedBeats_nil]
    refine hmore.fills hgraces hbeats ?_ ?_
    · rw [hnone, add_zero]
    · rw [hnone, sub_zero, hduration]
  · refine hmore.fills hgraces hbeats rfl ?_
    have hborrowed : borrowedBeats chord.graces beats ≤ beats / 2 := borrowedBeats_le hbeats
    rw [Note.delay, remaining, Beats.later_eq_max, Beats.zero_eq, hduration]
    exact max_eq_left (by linarith)

theorem getElem?_closedNotes {chord : OpenChord Rat} {notes : List (Note Rat)}
    (hcount : chord.notes.count first = 1) (hn : notes[first]? = some n) (multiplier beats : Rat) :
    (closedNotes chord multiplier beats notes)[first]? =
      some (if chord.graces.isEmpty then n.multiply multiplier
        else (n.multiply multiplier).delay (borrowedBeats chord.graces beats)) := by
  unfold closedNotes
  dsimp only
  split
  · rw [getElem?_changeAt, hcount, hn]
    rfl
  · rw [getElem?_changeAt, getElem?_changeAt, hcount, hn]
    rfl

theorem length_closedNotes (chord : OpenChord Rat) (multiplier beats : Rat)
    (notes : List (Note Rat)) :
    (closedNotes chord multiplier beats notes).length = notes.length := by
  unfold closedNotes
  dsimp only
  split
  · exact List.length_mapIdx
  · exact List.length_mapIdx.trans List.length_mapIdx

/-- The first note of a chord that is closed fills the chord's time with the grace notes. -/
theorem Led.fills_closed (hled : Led first advance n s) {chord : OpenChord Rat}
    (hchord : s.chord = some chord) (hduration : n.duration = advance)
    (hgraces : ∀ g ∈ chord.graces, 0 < g.beats) {multiplier : Rat} {more : List (Note Rat)}
    (hbeats : 0 ≤ advance * multiplier)
    (hmore : GraceNotes chord.graces n.start (advance * multiplier) more) :
    ∃ m, (closedNotes chord multiplier (advance * multiplier) s.time.notes)[first]? = some m ∧
      Fills chord.graces n.start (advance * multiplier) more m := by
  obtain ⟨opened,rest,hopened,hnotes,hrest,-⟩ := hled.chord
  obtain rfl := Option.some.inj (hchord.symm.trans hopened)
  have hcount : chord.notes.count first = 1 := by
    rw [hnotes, List.count_cons_self, List.count_eq_zero_of_not_mem hrest]
  exact ⟨_,getElem?_closedNotes hcount hled.note multiplier (advance * multiplier),
    MusicState.fills_closed (n := n.multiply multiplier) hmore hgraces hbeats
      (congrArg (· * multiplier) hduration)⟩

/-- A chord that has its notes among those of the voice can be closed. -/
theorem InRange.exists_closed (h : s.InRange) {chord : OpenChord Rat}
    (hchord : s.chord = some chord) (hplaces : ∀ i ∈ chord.notes, i < s.time.notes.length)
    (hkind : token.kind = .chordEnd) {multiplier : Rat}
    (hread : readLength? (token.text.drop 1) = some multiplier) (context : MusicContext Rat) :
    ∃ t, s.handle token context = .ok (t,none) ∧ t.chord = none := by
  obtain ⟨v,hv,-⟩ := h.active.exists_noteVoice
  have hnotes : s.time.notes = v.notes :=
    (VoiceTable.notesOf_ensureActive _ _).symm.trans (VoiceTable.notesOf_of_find? hv)
  obtain ⟨w,-,hclosed⟩ := closeChord_ok hchord hread hv (hnotes ▸ hplaces)
  rw [MusicState.handle, hkind]
  exact ⟨_,hclosed,rfl⟩

/-- A chord that is closed gives a part of its first note's time to its grace notes. -/
theorem Opened.close (h : Opened start factor graces s) (hled : Led first advance n s)
    (hstart : n.start = start) (hduration : n.duration = advance) (hadvance : 0 ≤ advance)
    (hgraces : ∀ g ∈ graces, 0 < g.beats) (hkind : token.kind = .chordEnd) {multiplier : Rat}
    (hread : readLength? (token.text.drop 1) = some multiplier) (context : MusicContext Rat) :
    ∃ t m, s.handle token context = .ok (t,none) ∧ t.time.notes[first]? = some m ∧
      Fills graces start (advance * multiplier) (t.time.notes.drop s.time.notes.length) m ∧
      t.time.clock = s.time.clock + advance * multiplier := by
  obtain ⟨chord,hchord,rfl,-,rfl,-,hplaces⟩ := h.chord
  obtain ⟨opened,-,hopened,-,-,hfirst⟩ := hled.chord
  obtain rfl := Option.some.inj (hchord.symm.trans hopened)
  obtain ⟨t,hok,hgone⟩ := h.range.exists_closed hchord hplaces hkind hread context
  have hmultiplier : 0 < multiplier := Beats.zero_eq ▸ readLength?_pos hread
  have hbeats : 0 ≤ advance * multiplier := mul_nonneg hadvance hmultiplier.le
  cases h.range.passage hok with
  | chordEnd chord' multiplier' more hkind' hchord' hread' hplaces' hmore hturns hline =>
    obtain rfl := Option.some.inj (hchord.symm.trans hchord')
    obtain rfl := Option.some.inj (hread.symm.trans hread')
    have htime := hturns.time
    rw [hfirst, Option.getD_some] at hmore htime
    rw [← hstart] at hmore ⊢
    obtain ⟨m,hm,hfills⟩ := hled.fills_closed hchord hduration hgraces hbeats hmore
    have hlength := length_closedNotes chord multiplier (advance * multiplier) s.time.notes
    have hlt := (List.getElem?_eq_some_iff.mp hled.note).1
    refine ⟨t,m,hok,?_,?_,congrArg VoiceTime.clock htime⟩
    · rw [htime]
      exact (List.getElem?_append_left (hlength.symm ▸ hlt)).trans hm
    · rw [htime, List.drop_left' hlength]
      exact hfills
  | still hquiet => cases (hquiet.chordEnd hkind).symm.trans hchord
  | chordLost hkind' hread' => cases hread'.symm.trans hread
  | graceNote group w written hgroup hread' hstill hline =>
    have hsame : t.chord = s.chord := congrArg OpenLine.chord hline
    cases hchord.symm.trans (hsame.symm.trans hgone)
  | tuplet opened hkind' | tie hkind' | graceStart hkind' | graceEnd group hkind'
  | rest length hkind' | multiRest bars hkind' | single w pitch i more notes hkind'
  | chordStart chord hkind' | chordNote chord w pitch i notes hkind'
  | brokenRhythm factor next hkind' =>
    cases hkind.symm.trans hkind'

end Chords

end MusicState

/-- A chord as it is written: its opening mark, what comes before its first note, that note, what
comes behind it, and its closing mark with a length. -/
structure WrittenChord where
  opening : Token
  lead : List (MusicMove Rat)
  first : Token
  inner : List (MusicMove Rat)
  closing : Token
  context : MusicContext Rat
  note : WrittenNote Rat
  multiplier : Rat
  unit : 0 < context.unitLength
  opening_kind : opening.kind = .chordStart
  lead_isInner : ∀ m ∈ lead, m.IsInner
  first_kind : first.kind = .note
  first_read : WrittenNote.read? first.text = some note
  inner_isInner : ∀ m ∈ inner, m.IsInner
  closing_kind : closing.kind = .chordEnd
  closing_read : readLength? (closing.text.drop 1) = some multiplier

namespace MusicState

variable {s : MusicState Rat}

/-- A chord that is opened, written and closed fills its time with the grace notes that wait. -/
theorem Timed.chord_fills (h : s.Timed) (hgroup : s.graceGroup = none) (hchord : s.chord = none)
    (c : WrittenChord) :
    ∃ x, s.run (.token c.opening c.context :: c.lead) = .ok x ∧
      (x.chord.map (·.notes) = some [] → x.graceGroup = none → x.staccato = false →
        x.Untied c.note c.context.key →
        let beats := s.advanceOf (c.context.beats c.note.length) * c.multiplier
        ∃ u t n, x.run (.token c.first c.context :: c.inner) = .ok u ∧
          u.handle c.closing c.context = .ok (t,none) ∧
          t.time.notes[x.time.notes.length]? = some n ∧
          Fills s.time.graces s.time.clock beats (t.time.notes.drop u.time.notes.length) n ∧
          t.time.clock = u.time.clock + beats ∧
          ((∀ m ∈ c.lead ++ c.inner, m.LeavesCursor) → u.time.clock = s.time.clock)) := by
  have hclose : ¬ s.ClosesElsewhere c.opening := fun hclose => by
    cases c.opening_kind.symm.trans hclose.1
  obtain ⟨y,problem,hy,-⟩ := h.range.handle hclose c.context
  obtain ⟨hopened,hclock⟩ := opened_of_chordStart h.range c.opening_kind hchord hgroup hy
  obtain ⟨x,hx,hopened,-,hlead⟩ := inner_run hopened c.lead_isInner
  refine ⟨x,?_,fun hnone hxgroup hwhole huntied => ?_⟩
  · rw [MusicState.run, MusicState.move, hy]
    exact hx
  · obtain ⟨v,n,hv,hopened,hled,hstart,hduration,hclockv⟩ :=
      hopened.firstNote hnone hxgroup c.first_kind c.first_read hwhole huntied
    obtain ⟨u,hu,hopened,hkept,hinner⟩ := inner_run hopened c.inner_isInner
    have hbeats := MusicContext.beats_pos c.unit (WrittenNote.read?_pos c.first_read)
    have hadvance : c.context.beats c.note.length * s.advanceOf 1 =
        s.advanceOf (c.context.beats c.note.length) := by
      rw [advanceOf, advanceOf]
      ring
    rw [hadvance] at hled hduration
    obtain ⟨t,m,ht,hm,hfills,hclockt⟩ := hopened.close (hkept _ _ _ hled) hstart hduration
      (h.axis.advanceOf_nonneg hbeats.le) (h.graces.voice _) c.closing_kind c.closing_read c.context
    refine ⟨u,t,m,?_,ht,hm,hfills,hclockt,fun hleaves => ?_⟩
    · rw [MusicState.run, MusicState.move, hv]
      exact hu
    · obtain ⟨hfirst,hlater⟩ := List.forall_mem_append.mp hleaves
      rw [hinner hlater, hclockv, hlead hfirst, hclock]

/-- Grace notes and their principal fill the principal's time exactly, wherever a run with positive
unit lengths has come to: for a note by itself that is neither tied nor cut short, when it is read,
and for the first note of a chord, when the chord is closed. The time is what the note or the chord
takes with all factors; the cursor moves over it, and so stands at its end unless bars of rest or
broken rhythm have moved it inside the chord. -/
theorem run_gracesFill {moves : List (MusicMove Rat)} (hforward : ∀ m ∈ moves, m.Forward)
    (hrun : initial.run moves = .ok s) (hgroup : s.graceGroup = none) (hchord : s.chord = none) :
    (∀ (token : Token) (context : MusicContext Rat) (w : WrittenNote Rat), token.kind = .note →
      WrittenNote.read? token.text = some w → 0 < context.unitLength → s.staccato = false →
      s.Untied w context.key →
      let beats := s.advanceOf (context.beats w.length)
      ∃ t more n, s.handle token context = .ok (t,none) ∧
        t.time.notes = s.time.notes ++ more ++ [n] ∧
        Fills s.time.graces s.time.clock beats more n ∧ t.time.clock = s.time.clock + beats) ∧
    (∀ c : WrittenChord, ∃ x, s.run (.token c.opening c.context :: c.lead) = .ok x ∧
      (x.chord.map (·.notes) = some [] → x.graceGroup = none → x.staccato = false →
        x.Untied c.note c.context.key →
        let beats := s.advanceOf (c.context.beats c.note.length) * c.multiplier
        ∃ u t n, x.run (.token c.first c.context :: c.inner) = .ok u ∧
          u.handle c.closing c.context = .ok (t,none) ∧
          t.time.notes[x.time.notes.length]? = some n ∧
          Fills s.time.graces s.time.clock beats (t.time.notes.drop u.time.notes.length) n ∧
          t.time.clock = u.time.clock + beats ∧
          ((∀ m ∈ c.lead ++ c.inner, m.LeavesCursor) → u.time.clock = s.time.clock))) := by
  have htimed : s.Timed := timed_initial.run hforward hrun
  constructor
  · intro token context w hkind hread hunit hwhole huntied
    exact htimed.single_fills hunit hkind hread hgroup hchord hwhole huntied
  · exact htimed.chord_fills hgroup hchord

/-- Two grace notes behind broken rhythm: a single note gives them half of its time, and a long
chord gives them half of theirs. -/
theorem run_gracesFill_bothCaps :
    ∃ (moves : List (MusicMove Rat)) (s : MusicState Rat) (note : Token) (c : WrittenChord),
      (∀ m ∈ moves, m.Forward) ∧ initial.run moves = .ok s ∧ s.time.clock = 3/4 ∧
      s.time.graces.map Grace.writtenBeats = [1/2,1] ∧
      (∃ t more n, s.handle note c.context = .ok (t,none) ∧
        t.time.notes = s.time.notes ++ more ++ [n] ∧
        Fills s.time.graces (3/4) (1/4) more n ∧ t.time.clock = 1) ∧
      (∃ x u t n, s.run (.token c.opening c.context :: c.lead) = .ok x ∧
        x.run (.token c.first c.context :: c.inner) = .ok u ∧
        u.handle c.closing c.context = .ok (t,none) ∧
        t.time.notes[x.time.notes.length]? = some n ∧
        Fills s.time.graces (3/4) 2 (t.time.notes.drop u.time.notes.length) n ∧
        t.time.clock = 11/4) := by
  let sign (kind : TokenKind) (text : String) : Token := ⟨kind,text.toList,1,1,[]⟩
  let music (kind : TokenKind) (text : String) : MusicMove Rat := .token (sign kind text) .initial
  let moves : List (MusicMove Rat) := [music .note "E",music .brokenRhythm ">",
    music .graceStart "\x7b",music .note "C",music .note "D2",music .graceEnd "\x7d"]
  have hunit : 0 < (MusicContext.initial : MusicContext Rat).unitLength := by decide +kernel
  have hread : (WrittenNote.read? (β := Rat) "C".toList).map (·.length) = some 1 := by
    decide +kernel
  obtain ⟨w,hread,hlength⟩ := Option.map_eq_some_iff.mp hread
  let c : WrittenChord := {
    opening := sign .chordStart "[", lead := [], first := sign .note "C"
    inner := [music .note "E"], closing := sign .chordEnd "]8", context := .initial
    note := w, multiplier := 8, unit := hunit, opening_kind := rfl
    lead_isInner := List.forall_mem_nil _, first_kind := rfl, first_read := hread
    inner_isInner := by simp [music, sign, MusicMove.IsInner]
    closing_kind := rfl, closing_read := by decide +kernel }
  have hforward : ∀ m ∈ moves, m.Forward := by
    simp [moves, music, MusicMove.Forward, hunit]
  have hstate : (initial.run moves).toOption.map (fun s => (s.time.clock,
      s.time.graces.map Grace.writtenBeats,s.graceGroup.isNone && s.chord.isNone && !s.staccato,
      s.time.tiedFrom,s.advanceOf (MusicContext.initial.beats 1))) =
        some (3/4,[1/2,1],true,[],1/4) := by decide +kernel
  obtain ⟨s,hs,hstate⟩ := exists_of_toOption_map hstate
  simp only [Prod.mk.injEq, Bool.and_eq_true, Option.isNone_iff_eq_none, Bool.not_eq_true']
    at hstate
  obtain ⟨hclock,hgraces,⟨⟨hgroup,hchord⟩,hwhole⟩,htied,hadvance⟩ := hstate
  have hbeats : s.advanceOf (c.context.beats c.note.length) = 1/4 := hlength ▸ hadvance
  have hinside : (initial.run (moves ++ [music .chordStart "["])).toOption.map (fun x =>
      (x.chord.map (·.notes),x.graceGroup.isNone && !x.staccato,x.time.tiedFrom)) =
        some (some [],true,[]) := by decide +kernel
  obtain ⟨hsingle,hchords⟩ := run_gracesFill hforward hs hgroup hchord
  refine ⟨moves,s,sign .note "C",c,hforward,hs,hclock,hgraces,?_,?_⟩
  · obtain ⟨t,more,n,hok,hnotes,hfills,hend⟩ := hsingle (sign .note "C") c.context c.note rfl
      c.first_read hunit hwhole fun pitch _ => by rw [htied]; rfl
    rw [hclock, hbeats] at hfills hend
    exact ⟨t,more,n,hok,hnotes,hfills,hend.trans (by norm_num)⟩
  · obtain ⟨x,hx,hrest⟩ := hchords c
    have hlead : s.run [music .chordStart "["] = .ok x := hx
    rw [run_append hs, hlead] at hinside
    obtain ⟨hnone,hfirst⟩ := Prod.mk.inj (Option.some.inj hinside)
    obtain ⟨hopen,hfree⟩ := Prod.mk.inj hfirst
    rw [Bool.and_eq_true, Option.isNone_iff_eq_none, Bool.not_eq_true'] at hopen
    obtain ⟨u,t,n,hu,ht,hn,hfills,hend,hstays⟩ := hrest hnone hopen.1 hopen.2 fun pitch _ => by
      rw [hfree]
      rfl
    have hcursor := hstays (by simp [c, music, sign, MusicMove.LeavesCursor])
    have hlong : (1/4 : Rat) * 8 = 2 := by norm_num
    rw [hclock, hbeats] at hfills
    rw [hcursor, hclock, hbeats] at hend
    exact ⟨x,u,t,n,hx,hu,ht,hn,hlong ▸ hfills,hend.trans (by norm_num)⟩

end MusicState
end AbcTune
