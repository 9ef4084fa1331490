import AbcTune.Proofs.Music.Axis

/-! # Music in order

Without grace notes, and with neither broken rhythm nor another voice inside a chord, a voice goes
on behind the notes that it may still change: its last note or chord, and the notes that a tie goes
on from, start before its clock by at least what it took last.
-/
namespace AbcTune

/-! ## Tuplets -/

namespace Tuplet

structure Positive (t : Tuplet) : Prop where
  notes : 0 < t.notes
  inTimeOf : 0 < t.inTimeOf

theorem defaultInTimeOf_pos (notes : Nat) (meter : Meter) : 0 < defaultInTimeOf notes meter := by
  unfold defaultInTimeOf
  split
  · decide
  · decide
  · decide
  · decide
  · decide
  · split <;> decide

theorem positive_of_read? {text : Text} {meter : Meter} {t : Tuplet}
    (h : read? text meter = some t) : t.Positive := by
  simp only [read?, Option.bind_eq_bind, Option.bind_eq_some_iff] at h
  obtain ⟨notes,-,h⟩ := h
  split at h
  · cases h
  · next hzero =>
    simp only [Option.bind_eq_some_iff] at h
    obtain ⟨time,-,remaining,-,h⟩ := h
    obtain rfl := Option.some.inj h
    refine ⟨Nat.pos_of_ne_zero hzero,?_⟩
    dsimp only
    split
    · exact defaultInTimeOf_pos notes meter
    · next htime => exact Nat.pos_of_ne_zero htime

theorem positive_countNote {ts : List Tuplet} (h : ∀ t ∈ ts, t.Positive) :
    ∀ t ∈ countNote ts, t.Positive := by
  induction ts with
  | nil => exact h
  | cons t outer ih =>
    obtain ⟨ht,houter⟩ := List.forall_mem_cons.mp h
    unfold countNote
    split
    · exact ih houter
    · exact List.forall_mem_cons.mpr ⟨⟨ht.notes,ht.inTimeOf⟩,houter⟩

theorem scaleAll_pos {ts : List Tuplet} (h : ∀ t ∈ ts, t.Positive) :
    0 < (scaleAll ts : Rat) := by
  induction ts with
  | nil => exact (by norm_num : (0 : Rat) < 1.0)
  | cons t outer ih =>
    obtain ⟨ht,houter⟩ := List.forall_mem_cons.mp h
    have hscale : 0 < (t.scale : Rat) :=
      div_pos (Nat.cast_pos.mpr ht.inTimeOf) (Nat.cast_pos.mpr ht.notes)
    exact mul_pos (ih houter) hscale

end Tuplet

/-! ## Voices in order -/

/-- A voice without grace notes that has passed the notes that it may still change. -/
structure VoiceTime.InOrder (x : VoiceTime Rat) : Prop where
  graces : x.graces = []
  brokenNext : ∀ factor ∈ x.brokenNext, 0 < factor
  behind : ∀ i ∈ x.lastGroup ++ x.tiedFrom, ∀ n ∈ x.notes[i]?,
    0 < x.lastAdvance ∧ n.start + x.lastAdvance ≤ x.clock

/-- An open chord of a voice: its notes start no later than the chord, and the notes of the voice
before it start earlier. -/
structure OpenChord.InOrder (chord : OpenChord Rat) (x : VoiceTime Rat) : Prop where
  start : chord.start ≤ x.clock
  factor : 0 < chord.factor
  graces : chord.graces = []
  firstAdvance : ∀ advance ∈ chord.firstAdvance, 0 < advance
  empty : chord.firstAdvance = none → chord.notes = []
  notes : ∀ i ∈ chord.notes, ∀ n ∈ x.notes[i]?, n.start ≤ chord.start
  behind : ∀ i ∈ x.lastGroup ++ x.tiedFrom, ∀ n ∈ x.notes[i]?, n.start < chord.start

/-! ## A voice with a note more -/

section Voices

open MusicState

variable {x : VoiceTime Rat} {chord : OpenChord Rat} {pitch i : Nat} {start beats : Rat}
  {notes : List (Note Rat)}

/-- A note by itself starts at the clock, or was tied and starts before it. -/
theorem VoiceTime.InOrder.addNote (h : x.InOrder) {advance : Rat} (hadvance : 0 < advance)
    (hplaced : Lands x.tiedFrom pitch x.clock beats x.notes i notes) :
    VoiceTime.InOrder ⟨x.clock + advance,notes,[],[i],advance,[],none⟩ := by
  refine ⟨rfl,forall_mem_none,fun j hj n hn => ?_⟩
  obtain rfl : j = i := by simpa using hj
  refine ⟨hadvance,add_le_add_left (hplaced.start_le le_rfl (fun k hk m hm => ?_) n hn) _⟩
  obtain ⟨hlast,hbehind⟩ := h.behind k (List.mem_append_right _ hk) m hm
  linarith

/-- A note that is written leaves the starts of those before the chord alone. -/
theorem VoiceTime.exists_start_eq (hrange : ∀ j ∈ x.lastGroup ++ x.tiedFrom, j < x.notes.length)
    (hplaced : Lands x.tiedFrom pitch start beats x.notes i notes) :
    ∀ j ∈ x.lastGroup ++ x.tiedFrom, ∀ n ∈ notes[j]?, ∃ n' ∈ x.notes[j]?, n.start = n'.start := by
  intro j hj n hn
  rcases hplaced.getElem?_start j hn with hold | ⟨rfl,hlength,-⟩
  · exact hold
  · exact absurd (hrange j hj) (by omega)

theorem VoiceTime.InOrder.addChordNote (h : x.InOrder)
    (hrange : ∀ j ∈ x.lastGroup ++ x.tiedFrom, j < x.notes.length)
    (hplaced : Lands x.tiedFrom pitch start beats x.notes i notes) :
    VoiceTime.InOrder { x with notes } := by
  refine ⟨h.graces,h.brokenNext,fun j hj n hn => ?_⟩
  obtain ⟨n',hn',hstart⟩ := exists_start_eq hrange hplaced j hj n hn
  exact hstart ▸ h.behind j hj n' hn'

/-- Broken rhythm moves the ends of the last notes and the clock behind them together. -/
theorem VoiceTime.InOrder.breakRhythm (h : x.InOrder) (hlast : 0 < x.lastAdvance)
    {factor next : Rat} (hfactor : 0 < factor) (hnext : 0 < next) :
    VoiceTime.InOrder { x with
      clock := x.clock + x.lastAdvance * (factor - 1)
      notes := changeAt (stretch (x.clock - x.lastAdvance) factor) x.lastGroup x.notes
      lastAdvance := x.lastAdvance * factor, brokenNext := some next } := by
  refine ⟨h.graces,?_,fun i hi n hn => ?_⟩
  · rintro _ ⟨⟩
    exact hnext
  · obtain ⟨n',hn',hstart⟩ := exists_of_changeAt
      (f := stretch (x.clock - x.lastAdvance) factor) (fun _ => rfl) hn
    obtain ⟨-,hbehind⟩ := h.behind i hi n' hn'
    refine ⟨mul_pos hlast hfactor,?_⟩
    change n.start + x.lastAdvance * factor ≤ x.clock + x.lastAdvance * (factor - 1)
    linarith

/-! ## A chord from its start to its end -/

/-- A chord that is opened at the clock has no notes, and those before it start earlier. -/
theorem VoiceTime.InOrder.openChord (h : x.InOrder) (hstart : chord.start = x.clock)
    (hfactor : 0 < chord.factor) (hgraces : chord.graces = []) (hnotes : chord.notes = [])
    (hfirst : chord.firstAdvance = none) :
    chord.InOrder { x with graces := [], brokenNext := none } where
  start := hstart.le
  factor := hfactor
  graces := hgraces
  firstAdvance := hfirst ▸ forall_mem_none
  empty _ := hnotes
  notes := hnotes ▸ List.forall_mem_nil _
  behind i hi n hn := by
    obtain ⟨hlast,hbehind⟩ := h.behind i hi n hn
    rw [hstart]
    linarith

theorem OpenChord.InOrder.addNote (h : chord.InOrder x)
    (hrange : ∀ j ∈ x.lastGroup ++ x.tiedFrom, j < x.notes.length)
    (hplaced : Lands x.tiedFrom pitch chord.start beats x.notes i notes) {advance : Rat}
    (hadvance : 0 < advance) :
    OpenChord.InOrder { chord with
      notes := chord.notes ++ [i]
      firstAdvance := chord.firstAdvance <|> some advance } { x with notes } := by
  refine ⟨h.start,h.factor,h.graces,forall_orElse h.firstAdvance hadvance,fun hnone => ?_,
    fun j hj n hn => ?_,fun j hj n hn => ?_⟩
  · change (chord.firstAdvance <|> some _) = none at hnone
    cases hfirst : chord.firstAdvance <;> rw [hfirst] at hnone <;> cases hnone
  · by_cases hji : j = i
    · subst hji
      exact hplaced.start_le le_rfl
        (fun k hk m hm => (h.behind k (List.mem_append_right _ hk) m hm).le) n hn
    · rw [hplaced.others hji] at hn
      have hj : j ∈ chord.notes := by simpa [hji] using hj
      exact h.notes j hj n hn
  · obtain ⟨n',hn',hstart⟩ := VoiceTime.exists_start_eq hrange hplaced j hj n hn
    exact hstart ▸ h.behind j hj n' hn'

/-- A chord that is closed takes the voice behind its notes. -/
theorem OpenChord.InOrder.close (h : chord.InOrder x) (hx : x.InOrder) {multiplier : Rat}
    (hmultiplier : 0 < multiplier) :
    VoiceTime.InOrder { x with
      clock := x.clock + chord.firstAdvance.getD 0 * multiplier
      notes := changeAt (Note.multiply multiplier) chord.notes x.notes
      lastGroup := chord.notes, lastAdvance := chord.firstAdvance.getD 0 * multiplier
      tiedFrom := [] } := by
  refine ⟨hx.graces,hx.brokenNext,fun i hi n hn => ?_⟩
  have hi : i ∈ chord.notes := by simpa using hi
  obtain ⟨n',hn',hstart⟩ := exists_of_changeAt (f := Note.multiply multiplier) (fun _ => rfl) hn
  have hle : n.start ≤ x.clock := hstart ▸ (h.notes i hi n' hn').trans h.start
  cases hfirst : chord.firstAdvance with
  | none =>
    rw [h.empty hfirst] at hi
    exact absurd hi List.not_mem_nil
  | some advance =>
    exact ⟨mul_pos (h.firstAdvance advance hfirst) hmultiplier,add_le_add_left hle _⟩

end Voices

namespace MusicState

/-- Moves that keep music in order. -/
def Orders (s : MusicState Rat) : MusicMove Rat → Prop
  | .token token _ => token.kind ≠ .graceStart ∧ (token.kind = .brokenRhythm → s.chord = none)
  | .voices (.switchTo _) => s.chord = none
  | _ => True

structure InOrder (s : MusicState Rat) : Prop where
  voice : ∀ id, (s.timeOf id).InOrder
  tuplets : ∀ t ∈ s.tuplets, t.Positive
  graceGroup : s.graceGroup = none
  chord : ∀ chord ∈ s.chord, ∃ id, s.voices.active = some id ∧ chord.InOrder (s.timeOf id)

variable {s t : MusicState Rat} {token : Token} {context : MusicContext Rat}

theorem inOrder_initial : (initial : MusicState Rat).InOrder where
  voice _ := ⟨rfl,forall_mem_none,List.forall_mem_nil _⟩
  tuplets _ ht := absurd ht List.not_mem_nil
  graceGroup := rfl
  chord _ hchord := absurd hchord (Option.not_mem_none _)

theorem InOrder.time (h : s.InOrder) : s.time.InOrder := h.voice _

theorem InOrder.advanceOf_pos (h : s.InOrder) {nominal : Rat} (hnominal : 0 < nominal) :
    0 < s.advanceOf nominal := by
  have hbroken : 0 < s.time.brokenNext.getD 1 := by
    cases hfactor : s.time.brokenNext with
    | none => exact zero_lt_one
    | some factor => exact (h.voice _).brokenNext factor hfactor
  exact mul_pos (mul_pos hnominal hbroken) (Tuplet.scaleAll_pos h.tuplets)

/-- The open chord belongs to the voice that notes go to. -/
theorem InOrder.chord_time (h : s.InOrder) {chord : OpenChord Rat} (hchord : s.chord = some chord) :
    s.voices.active = some s.voices.noteVoice ∧ chord.InOrder s.time := by
  obtain ⟨id,hactive,hinOrder⟩ := h.chord chord hchord
  obtain rfl := VoiceTable.noteVoice_of_active hactive
  exact ⟨hactive,hinOrder⟩

theorem InRange.tiedFrom_time (h : s.InRange) : ∀ i ∈ s.time.tiedFrom, i < s.time.notes.length :=
  h.tiedFrom s.voices.noteVoice

theorem InRange.behind_time (h : s.InRange) :
    ∀ i ∈ s.time.lastGroup ++ s.time.tiedFrom, i < s.time.notes.length := by
  intro i hi
  rcases List.mem_append.mp hi with hi | hi
  · exact h.lastGroup s.voices.noteVoice i hi
  · exact h.tiedFrom s.voices.noteVoice i hi

theorem inOrder_of_line (hvoice : ∀ id, (t.timeOf id).InOrder) {tuplets : List Tuplet}
    {opened : Option (OpenChord Rat)} (hgroup : s.graceGroup = none)
    (hline : t.line = { s.line with tuplets, chord := opened })
    (htuplets : ∀ u ∈ tuplets, u.Positive)
    (hopened : ∀ chord ∈ opened, ∃ id, t.voices.active = some id ∧ chord.InOrder (t.timeOf id)) :
    t.InOrder := by
  have htuplets' : t.tuplets = tuplets := congrArg OpenLine.tuplets hline
  have hgroup' : t.graceGroup = s.graceGroup := congrArg OpenLine.graceGroup hline
  have hopened' : t.chord = opened := congrArg OpenLine.chord hline
  exact ⟨hvoice,htuplets' ▸ htuplets,hgroup'.trans hgroup,hopened' ▸ hopened⟩

theorem InOrder.chord_still (h : s.InOrder) (hstill : Still s t) :
    ∀ chord ∈ s.chord, ∃ id, t.voices.active = some id ∧ chord.InOrder (t.timeOf id) := by
  intro chord hchord
  obtain ⟨id,hactive,hinOrder⟩ := h.chord chord hchord
  exact ⟨id,hstill.active id hactive,(hstill.voice id).symm ▸ hinOrder⟩

theorem Turns.chord {x : VoiceTime Rat} (h : Turns s t x) {chord : OpenChord Rat}
    (hchord : chord.InOrder x) : ∃ id, t.voices.active = some id ∧ chord.InOrder (t.timeOf id) :=
  ⟨_,h.active,h.voice.symm ▸ hchord⟩

theorem InOrder.noteStart_eq (h : s.InOrder) (hchord : s.chord = none) (nominal : Rat) :
    s.noteStart nominal = s.time.clock := by
  rw [noteStart, hchord]
  dsimp only
  rw [h.time.graces, borrowedBeats_nil, add_zero]

theorem InOrder.passage (h : s.InOrder) (hrange : s.InRange) (hunit : 0 < context.unitLength)
    (horders : s.Orders (.token token context)) (hpassage : Passage s t token context) :
    t.InOrder := by
  have hvoice := h.voice
  have hnow := h.time
  have hgroup := h.graceGroup
  cases hpassage with
  | still hquiet hstill hline =>
    exact inOrder_of_line (hstill.forall hvoice) hgroup hline h.tuplets (h.chord_still hstill)
  | tuplet u hkind hread hstill hline =>
    refine inOrder_of_line (hstill.forall hvoice) hgroup hline ?_ (h.chord_still hstill)
    exact List.forall_mem_cons.mpr ⟨Tuplet.positive_of_read? hread,h.tuplets⟩
  | tie hkind hturns hline =>
    have hlast : ∀ i ∈ s.time.lastGroup ++ s.time.lastGroup,
        i ∈ s.time.lastGroup ++ s.time.tiedFrom := by
      intro i hi
      rw [List.mem_append, or_self] at hi
      exact List.mem_append_left _ hi
    refine inOrder_of_line (hturns.forall hvoice ?_) hgroup hline h.tuplets fun chord hchord => ?_
    · exact ⟨hnow.graces,hnow.brokenNext,fun i hi => hnow.behind i (hlast i hi)⟩
    · obtain ⟨-,hopen⟩ := h.chord_time hchord
      exact hturns.chord ⟨hopen.start,hopen.factor,hopen.graces,hopen.firstAdvance,hopen.empty,
        hopen.notes,fun i hi => hopen.behind i (hlast i hi)⟩
  | graceStart hkind hstill hline => exact absurd hkind horders.1
  | graceNote group w written hsome hread hstill hline => cases hgroup.symm.trans hsome
  | graceEnd group hkind hsome hturns hline => cases hgroup.symm.trans hsome
  | rest length hkind hchord hread hturns hline =>
    refine inOrder_of_line (hturns.forall hvoice ?_) hgroup hline
      (Tuplet.positive_countNote h.tuplets) fun chord hsome => ?_
    · exact ⟨hnow.graces,forall_mem_none,List.forall_mem_nil _⟩
    · cases hchord.symm.trans hsome
  | multiRest bars hkind hread hturns hline =>
    have hadvance : 0 ≤ bars * context.meter.barBeats :=
      mul_nonneg (barCount?_nonneg hread) (Meter.barBeats_nonneg _)
    refine inOrder_of_line (hturns.forall hvoice ?_) hgroup hline h.tuplets fun chord hchord => ?_
    · exact ⟨hnow.graces,hnow.brokenNext,List.forall_mem_nil _⟩
    · obtain ⟨-,hopen⟩ := h.chord_time hchord
      exact hturns.chord ⟨hopen.start.trans (le_add_of_nonneg_right hadvance),hopen.factor,
        hopen.graces,hopen.firstAdvance,hopen.empty,hopen.notes,List.forall_mem_nil _⟩
  | single w pitch i more notes hkind hnone hchord hread hpitch hmore hplaced hturns hline =>
    have hadvance := h.advanceOf_pos (MusicContext.beats_pos hunit (WrittenNote.read?_pos hread))
    obtain rfl := hmore.empty hnow.graces
    rw [List.append_nil, h.noteStart_eq hchord] at hplaced
    refine inOrder_of_line (hturns.forall hvoice (hnow.addNote hadvance hplaced)) hgroup hline
      (Tuplet.positive_countNote h.tuplets) fun chord hsome => ?_
    cases hchord.symm.trans hsome
  | chordStart chord hkind hchord hstart hnotes hfirst hfactor hgraces hturns hline =>
    refine inOrder_of_line (hturns.forall hvoice ⟨rfl,forall_mem_none,hnow.behind⟩) hgroup hline
      h.tuplets fun opened hopened => ?_
    obtain rfl := Option.some.inj hopened
    exact hturns.chord (hnow.openChord hstart (hfactor ▸ h.advanceOf_pos zero_lt_one)
      (hgraces.trans hnow.graces) hnotes hfirst)
  | chordNote chord w pitch i notes hkind hnone hchord hread hpitch hplaced hturns hline =>
    have hbeats := MusicContext.beats_pos hunit (WrittenNote.read?_pos hread)
    obtain ⟨-,hopen⟩ := h.chord_time hchord
    have hstart : s.noteStart (context.beats w.length) = chord.start := by rw [noteStart, hchord]
    rw [hstart] at hplaced
    refine inOrder_of_line (hturns.forall hvoice (hnow.addChordNote hrange.behind_time hplaced))
      hgroup hline h.tuplets fun longer hlonger => ?_
    obtain rfl := Option.some.inj hlonger
    exact hturns.chord (hopen.addNote hrange.behind_time hplaced (mul_pos hbeats hopen.factor))
  | chordLost hkind hread hstill hline =>
    exact inOrder_of_line (hstill.forall hvoice) hgroup hline h.tuplets forall_mem_none
  | chordEnd chord multiplier more hkind hchord hread hplaces hmore hturns hline =>
    obtain ⟨-,hopen⟩ := h.chord_time hchord
    have hmultiplier : 0 < multiplier := Beats.zero_eq ▸ readLength?_pos hread
    obtain rfl := hmore.empty hopen.graces
    rw [closedNotes_of_no_graces hopen.graces, List.append_nil] at hturns
    exact inOrder_of_line (hturns.forall hvoice (hopen.close hnow hmultiplier)) hgroup hline
      (Tuplet.positive_countNote h.tuplets) forall_mem_none
  | brokenRhythm factor next hkind hfactors hlast hturns hline =>
    obtain ⟨hfactor,hnext⟩ := brokenFactors_pos hfactors
    refine inOrder_of_line (hturns.forall hvoice (hnow.breakRhythm hlast hfactor hnext)) hgroup
      hline h.tuplets fun chord hchord => ?_
    cases (horders.2 hkind).symm.trans hchord

theorem active_apply {u : VoiceTable Rat} {id : String} (h : u.active = some id)
    {op : VoiceTable.Operation Rat} (hop : ∀ other, op ≠ .switchTo other) :
    (u.apply op).active = some id := by
  cases op with
  | define other a => exact (VoiceTable.active_define u other a).trans h
  | switchTo other => exact absurd rfl (hop other)
  | ensureActive => exact (congrArg VoiceTable.active (VoiceTable.ensureActive_of_active h)).trans h
  | ensureSettings => exact (VoiceTable.active_ensureSettings u).trans h
  | advance beats => exact h
  | syncAll => exact h

theorem InOrder.apply (h : s.InOrder) (hrange : s.InRange) {op : VoiceTable.Operation Rat}
    (hforward : op.Forward) (horders : s.Orders (.voices op)) :
    InOrder { s with voices := s.voices.apply op } := by
  have hclock := VoiceTable.clock_le_apply hrange.active hforward
  refine ⟨fun id => ?_,h.tuplets,h.graceGroup,fun chord hchord => ?_⟩
  · rw [timeOf_apply]
    refine ⟨(h.voice id).graces,(h.voice id).brokenNext,fun i hi n hn => ?_⟩
    obtain ⟨hlast,hbehind⟩ := (h.voice id).behind i hi n hn
    exact ⟨hlast,hbehind.trans (hclock id)⟩
  · obtain ⟨id,hactive,hopen⟩ := h.chord chord hchord
    refine ⟨id,active_apply hactive ?_,?_⟩
    · rintro other rfl
      cases hchord.symm.trans horders
    · rw [timeOf_apply]
      exact ⟨hopen.start.trans (hclock id),hopen.factor,hopen.graces,hopen.firstAdvance,
        hopen.empty,hopen.notes,hopen.behind⟩

theorem InOrder.move (h : s.InOrder) (hrange : s.InRange) {m : MusicMove Rat}
    (hforward : m.Forward) (horders : s.Orders m) (hm : s.move m = .ok t) : t.InOrder := by
  cases m with
  | token token context =>
    obtain ⟨⟨u,problem⟩,hok,rfl⟩ := exists_of_map_ok hm
    exact h.passage hrange hforward horders (hrange.passage hok)
  | endLine =>
    obtain rfl := Except.ok.inj hm
    exact ⟨h.voice,List.forall_mem_nil _,rfl,forall_mem_none⟩
  | startPart label =>
    obtain rfl := Except.ok.inj hm
    exact ⟨h.voice,h.tuplets,h.graceGroup,h.chord⟩
  | voices operation => exact Except.ok.inj hm ▸ h.apply hrange hforward horders

/-- A run that orders its moves keeps music in order. -/
theorem InOrder.run (h : s.InOrder) (hrange : s.InRange) {moves : List (MusicMove Rat)}
    (hforward : ∀ m ∈ moves, m.Forward) (horders : s.Along Orders moves)
    (hrun : s.run moves = .ok t) : t.InOrder := by
  have hforward : s.Along (fun _ m => m.Forward) moves := along_of_forall hforward
  refine ((hforward.and horders).induction (I := fun s => s.InOrder ∧ s.InRange) ⟨h,hrange⟩ ?_
    hrun).1
  exact fun s t m hs hm ht => ⟨hs.1.move hs.2 hm.1 hm.2 ht,hs.2.move ht⟩

end MusicState
end AbcTune
