import AbcTune.Proofs.Music.Labels
import AbcTune.Proofs.Music.Passage

/-! # The time axis

Broken rhythm takes a voice back by a part of what its last note, chord or rest took. So long as
that is no more than the time of the voice, no voice comes before the first beat, and no note is
written there.
-/
namespace AbcTune

/-! ## Clocks that go on -/

namespace VoiceTable

/-- Operations that turn no clock back. -/
def Operation.Forward : Operation Rat → Prop
  | .advance beats => 0 ≤ beats
  | _ => True

variable {t : VoiceTable Rat}

theorem clock_le_latestTime (id : String) (hid : t.contains id = true) :
    t.clock id ≤ t.latestTime := by
  obtain ⟨-,hlatest⟩ := Beats.isGreatest_foldl_later t.cursor
    ((t.voices.filter fun v => t.active ≠ some v.id).map (·.savedTime))
  by_cases hactive : t.active = some id
  · rw [clock_of_active hactive]
    exact hlatest (.inl rfl)
  · obtain ⟨v,hv⟩ := exists_find? hid
    obtain rfl := find?_id hv
    rw [clock_of_ne hactive, hv]
    have hmem : v ∈ t.voices.filter fun v => t.active ≠ some v.id :=
      List.mem_filter.mpr ⟨List.mem_of_find?_eq_some hv,decide_eq_true hactive⟩
    exact hlatest (.inr (List.mem_map_of_mem hmem))

theorem clock_le_apply (h : t.HasActive) {op : Operation Rat} (hop : op.Forward) (id : String) :
    t.clock id ≤ (t.apply op).clock id := by
  cases op with
  | define | switchTo | ensureActive | ensureSettings => exact (clock_apply h rfl id).ge
  | advance beats =>
    change 0 ≤ beats at hop
    by_cases hactive : t.active = some id
    · rw [clock_of_active hactive,
        clock_of_active (t := t.apply (.advance beats)) hactive]
      exact le_add_of_nonneg_right hop
    · rw [clock_of_ne hactive, clock_of_ne (t := t.apply (.advance beats)) hactive]
      exact le_rfl
  | syncAll =>
    change _ ≤ t.syncAll.clock id
    rw [clock_syncAll h]
    split
    · next hid => exact clock_le_latestTime id hid
    · next hid =>
      have hactive : t.active ≠ some id := fun hactive => hid (h id hactive)
      exact (clock_of_not_contains (by simpa using hid) hactive).le

theorem EachNotes.apply {R : List (Note Rat) → Prop} (h : t.EachNotes R) (hnil : R [])
    (op : Operation Rat) : (t.apply op).EachNotes R := by
  cases op with
  | define id a => exact h.define hnil id a
  | switchTo id => exact h.switchTo hnil id
  | ensureActive => exact h.ensureActive hnil
  | ensureSettings => exact h.ensureSettings hnil
  | advance beats => exact ⟨h.order,h.voices⟩
  | syncAll => exact h.syncAll

end VoiceTable

/-! ## Lengths -/

section Lengths

theorem MusicContext.beats_pos {context : MusicContext Rat} (h : 0 < context.unitLength)
    {length : Rat} (hlength : (0.0 : Rat) < length) : 0 < context.beats length := by
  rw [Beats.zero_eq] at hlength
  unfold MusicContext.beats
  positivity

theorem Tuplet.scaleAll_nonneg (ts : List Tuplet) : 0 ≤ (Tuplet.scaleAll ts : Rat) := by
  induction ts with
  | nil => exact (by norm_num : (0 : Rat) ≤ 1.0)
  | cons t outer ih =>
    have hscale : 0 ≤ (t.scale : Rat) :=
      div_nonneg (Nat.cast_nonneg t.inTimeOf) (Nat.cast_nonneg t.notes)
    exact mul_nonneg ih hscale

theorem Meter.barBeats_nonneg (m : Meter) : 0 ≤ (m.barBeats : Rat) := by
  have hvalue : 0 ≤ (m.value : Rat) :=
    div_nonneg (Nat.cast_nonneg m.beats) (Nat.cast_nonneg m.beatType)
  exact mul_nonneg hvalue (by norm_num)

namespace MusicState

theorem barCount?_nonneg {digits : Text} {bars : Rat} (h : barCount? digits = some bars) :
    0 ≤ bars := by
  unfold barCount? at h
  split at h
  · rw [← Option.some.inj h]
    norm_num
  · obtain ⟨n,-,rfl⟩ := Option.map_eq_some_iff.mp h
    exact Nat.cast_nonneg n

theorem halves_mem (n : Nat) : 0 < (halves n : Rat) ∧ (halves n : Rat) ≤ 1 := by
  induction n with
  | zero => norm_num [halves]
  | succ n ih =>
    obtain ⟨hpos,hle⟩ := ih
    unfold halves
    constructor
    · positivity
    · linarith

theorem brokenFactors_pos {text : Text} {factor next : Rat}
    (h : brokenFactors text = (factor,next)) : 0 < factor ∧ 0 < next := by
  obtain ⟨hpos,hle⟩ := halves_mem text.length
  unfold brokenFactors at h
  dsimp only at h
  split at h <;> cases h <;> constructor <;> linarith

end MusicState

end Lengths

/-! ## Voices on the axis -/

theorem forall_mem_none {α : Type} {P : α → Prop} : ∀ a ∈ (none : Option α), P a := nofun

/-- What holds of a value and of another one in its absence. -/
theorem forall_orElse {α : Type} {P : α → Prop} {o : Option α} {a : α} (ho : ∀ b ∈ o, P b)
    (ha : P a) : ∀ b ∈ (o <|> some a), P b := by
  intro b hb
  cases o with
  | none => exact Option.some.inj hb ▸ ha
  | some c => exact ho b hb

/-- A voice on the axis: its last note, chord or rest lies between the first beat and its clock. -/
structure VoiceTime.OnAxis (x : VoiceTime Rat) : Prop where
  lastAdvance : 0 ≤ x.lastAdvance
  clock : x.lastAdvance ≤ x.clock
  graces : ∀ g ∈ x.graces, 0 ≤ g.beats
  brokenNext : ∀ factor ∈ x.brokenNext, 0 ≤ factor
  notes : ∀ n ∈ x.notes, 0 ≤ n.start

structure OpenChord.OnAxis (chord : OpenChord Rat) : Prop where
  start : 0 ≤ chord.start
  factor : 0 ≤ chord.factor
  firstAdvance : ∀ advance ∈ chord.firstAdvance, 0 ≤ advance
  graces : ∀ g ∈ chord.graces, 0 ≤ g.beats

structure OpenLine.OnAxis (line : OpenLine Rat) : Prop where
  graceGroup : ∀ group ∈ line.graceGroup, ∀ g ∈ group, 0 ≤ g.beats
  chord : ∀ chord ∈ line.chord, chord.OnAxis

theorem VoiceTime.OnAxis.clock_nonneg {x : VoiceTime Rat} (h : x.OnAxis) : 0 ≤ x.clock :=
  h.lastAdvance.trans h.clock

theorem OpenLine.OnAxis.without_chord {line : OpenLine Rat} (h : line.OnAxis)
    (tuplets : List Tuplet) : { line with tuplets, chord := none }.OnAxis :=
  ⟨h.graceGroup,forall_mem_none⟩

theorem OpenLine.OnAxis.without_group {line : OpenLine Rat} (h : line.OnAxis) :
    { line with graceGroup := none }.OnAxis :=
  ⟨forall_mem_none,h.chord⟩

theorem OpenChord.OnAxis.advance_nonneg {chord : OpenChord Rat} (h : chord.OnAxis)
    {multiplier : Rat} (hmultiplier : 0 ≤ multiplier) :
    0 ≤ chord.firstAdvance.getD 0 * multiplier := by
  refine mul_nonneg ?_ hmultiplier
  cases hfirst : chord.firstAdvance with
  | none => exact le_rfl
  | some advance => exact h.firstAdvance advance hfirst

/-! ## Notes that are added to a voice on the axis -/

section Voices

open MusicState

variable {x : VoiceTime Rat} {chord : OpenChord Rat} {pitch i : Nat}
  {start beats advance factor next multiplier : Rat} {more notes : List (Note Rat)}

/-- A note by itself, with the grace notes before it. -/
theorem VoiceTime.OnAxis.addNote (h : x.OnAxis) (hadvance : 0 ≤ advance) (hstart : 0 ≤ start)
    (hmore : GraceNotes x.graces x.clock advance more)
    (hplaced : Lands x.tiedFrom pitch start beats (x.notes ++ more) i notes) :
    VoiceTime.OnAxis ⟨x.clock + advance,notes,[],[i],advance,[],none⟩ := by
  refine ⟨hadvance,le_add_of_nonneg_left h.clock_nonneg,List.forall_mem_nil _,forall_mem_none,
    hplaced.forall_start (P := (0 ≤ ·)) hstart fun n hn => ?_⟩
  rcases List.mem_append.mp hn with hn | hn
  · exact h.notes n hn
  · exact h.clock_nonneg.trans (hmore.follow hadvance h.graces n hn).1

/-- A chord that is closed, with the grace notes that were held back for it. -/
theorem OpenChord.OnAxis.close (h : chord.OnAxis) (hx : x.OnAxis) (hmultiplier : 0 ≤ multiplier)
    (hmore : GraceNotes chord.graces chord.start (chord.firstAdvance.getD 0 * multiplier) more) :
    VoiceTime.OnAxis { x with
      clock := x.clock + chord.firstAdvance.getD 0 * multiplier
      notes := closedNotes chord multiplier (chord.firstAdvance.getD 0 * multiplier) x.notes ++ more
      lastGroup := chord.notes, lastAdvance := chord.firstAdvance.getD 0 * multiplier
      tiedFrom := [] } := by
  have hadvance := h.advance_nonneg hmultiplier
  refine ⟨hadvance,le_add_of_nonneg_left hx.clock_nonneg,hx.graces,hx.brokenNext,fun n hn => ?_⟩
  rcases List.mem_append.mp hn with hn | hn
  · refine forall_closedNotes (P := fun n => 0 ≤ n.start) ?_ ?_ hx.notes n hn
    · exact fun _ hstart => hstart
    · exact fun _ hstart => add_nonneg hstart (borrowedBeats_nonneg hadvance)
  · exact h.start.trans (hmore.follow hadvance h.graces n hn).1

/-- Broken rhythm takes a voice back by no more than what it took last. -/
theorem VoiceTime.OnAxis.breakRhythm (h : x.OnAxis) (hfactor : 0 ≤ factor) (hnext : 0 ≤ next) :
    VoiceTime.OnAxis { x with
      clock := x.clock + x.lastAdvance * (factor - 1)
      notes := changeAt (stretch (x.clock - x.lastAdvance) factor) x.lastGroup x.notes
      lastAdvance := x.lastAdvance * factor, brokenNext := some next } := by
  refine ⟨mul_nonneg h.lastAdvance hfactor,?_,h.graces,?_,?_⟩
  · have hclock := h.clock
    change x.lastAdvance * factor ≤ x.clock + x.lastAdvance * (factor - 1)
    linarith
  · rintro _ ⟨⟩
    exact hnext
  · exact forall_changeAt (P := fun n => 0 ≤ n.start)
      (f := stretch (x.clock - x.lastAdvance) factor) (fun _ hstart => hstart) h.notes

end Voices

/-- Moves that turn no clock back, with a unit length that is positive. -/
def MusicMove.Forward : MusicMove Rat → Prop
  | .token _ context => 0 < context.unitLength
  | .voices operation => operation.Forward
  | _ => True

namespace MusicState

structure OnAxis (s : MusicState Rat) : Prop where
  voice : ∀ id, (s.timeOf id).OnAxis
  line : s.line.OnAxis

variable {s t : MusicState Rat} {token : Token} {context : MusicContext Rat}

theorem OnAxis.advanceOf_nonneg (h : s.OnAxis) {nominal : Rat} (hnominal : 0 ≤ nominal) :
    0 ≤ s.advanceOf nominal := by
  have hbroken : 0 ≤ s.time.brokenNext.getD 1 := by
    cases hfactor : s.time.brokenNext with
    | none => exact zero_le_one
    | some factor => exact (h.voice _).brokenNext factor hfactor
  exact mul_nonneg (mul_nonneg hnominal hbroken) (Tuplet.scaleAll_nonneg _)

theorem OnAxis.noteStart_nonneg (h : s.OnAxis) {nominal : Rat} (hnominal : 0 ≤ nominal) :
    0 ≤ s.noteStart nominal := by
  unfold noteStart
  cases hchord : s.chord with
  | some chord => exact (h.line.chord chord hchord).start
  | none =>
    exact add_nonneg (h.voice _).clock_nonneg (borrowedBeats_nonneg (h.advanceOf_nonneg hnominal))

/-- What a token does in time keeps all voices on the axis. -/
theorem OnAxis.passage (h : s.OnAxis) (hunit : 0 < context.unitLength)
    (hpassage : Passage s t token context) : t.OnAxis := by
  have hvoice := h.voice
  have hnow : s.time.OnAxis := hvoice _
  cases hpassage with
  | still hquiet hstill hline => exact ⟨hstill.forall hvoice,hline ▸ h.line⟩
  | tuplet u hkind hread hstill hline =>
    exact ⟨hstill.forall hvoice,hline ▸ ⟨h.line.graceGroup,h.line.chord⟩⟩
  | tie hkind hturns hline =>
    refine ⟨hturns.forall hvoice ?_,hline ▸ h.line⟩
    exact ⟨hnow.lastAdvance,hnow.clock,hnow.graces,hnow.brokenNext,hnow.notes⟩
  | graceStart hkind hstill hline =>
    refine ⟨hstill.forall hvoice,hline ▸ ⟨?_,h.line.chord⟩⟩
    rintro group hgroup g hg
    obtain rfl := Option.some.inj hgroup
    exact absurd hg List.not_mem_nil
  | graceNote group w written hgroup hread hstill hline =>
    refine ⟨hstill.forall hvoice,hline ▸ ⟨?_,h.line.chord⟩⟩
    rintro longer hlonger g hg
    obtain rfl := Option.some.inj hlonger
    rcases List.mem_append.mp hg with hg | hg
    · exact h.line.graceGroup group hgroup g hg
    · rw [List.mem_singleton.mp hg]
      have hbeats := MusicContext.beats_pos hunit (WrittenNote.read?_pos hread)
      exact mul_nonneg hbeats.le (by norm_num [graceScale])
  | graceEnd group hkind hgroup hturns hline =>
    refine ⟨hturns.forall hvoice ?_,hline ▸ h.line.without_group⟩
    refine ⟨hnow.lastAdvance,hnow.clock,fun g hg => ?_,hnow.brokenNext,hnow.notes⟩
    rcases List.mem_append.mp hg with hg | hg
    · exact hnow.graces g hg
    · exact h.line.graceGroup group hgroup g hg
  | rest length hkind hchord hread hturns hline =>
    have hbeats := MusicContext.beats_pos hunit (readLength?_pos hread)
    have hadvance := h.advanceOf_nonneg hbeats.le
    refine ⟨hturns.forall hvoice ?_,hline ▸ ⟨h.line.graceGroup,h.line.chord⟩⟩
    exact ⟨hadvance,le_add_of_nonneg_left hnow.clock_nonneg,hnow.graces,forall_mem_none,
      hnow.notes⟩
  | multiRest bars hkind hread hturns hline =>
    have hadvance : 0 ≤ bars * context.meter.barBeats :=
      mul_nonneg (barCount?_nonneg hread) (Meter.barBeats_nonneg _)
    refine ⟨hturns.forall hvoice ?_,hline ▸ h.line⟩
    exact ⟨hnow.lastAdvance,hnow.clock.trans (le_add_of_nonneg_right hadvance),hnow.graces,
      hnow.brokenNext,hnow.notes⟩
  | single w pitch i more notes hkind hgroup hchord hread hpitch hmore hplaced hturns hline =>
    have hbeats := MusicContext.beats_pos hunit (WrittenNote.read?_pos hread)
    refine ⟨hturns.forall hvoice ?_,hline ▸ ⟨h.line.graceGroup,h.line.chord⟩⟩
    exact hnow.addNote (h.advanceOf_nonneg hbeats.le) (h.noteStart_nonneg hbeats.le) hmore hplaced
  | chordStart chord hkind hchord hstart hnotes hfirst hfactor hgraces hturns hline =>
    refine ⟨hturns.forall hvoice ?_,hline ▸ ⟨h.line.graceGroup,?_⟩⟩
    · exact ⟨hnow.lastAdvance,hnow.clock,List.forall_mem_nil _,forall_mem_none,hnow.notes⟩
    · intro opened hopened
      obtain rfl := Option.some.inj hopened
      exact ⟨hstart ▸ hnow.clock_nonneg,hfactor ▸ h.advanceOf_nonneg zero_le_one,
        hfirst ▸ forall_mem_none,hgraces ▸ hnow.graces⟩
  | chordNote chord w pitch i notes hkind hgroup hchord hread hpitch hplaced hturns hline =>
    have hbeats := MusicContext.beats_pos hunit (WrittenNote.read?_pos hread)
    have hopen := h.line.chord chord hchord
    refine ⟨hturns.forall hvoice ?_,hline ▸ ⟨h.line.graceGroup,?_⟩⟩
    · refine ⟨hnow.lastAdvance,hnow.clock,hnow.graces,hnow.brokenNext,?_⟩
      exact hplaced.forall_start (P := (0 ≤ ·)) (h.noteStart_nonneg hbeats.le) hnow.notes
    · intro longer hlonger
      obtain rfl := Option.some.inj hlonger
      have hadvance := mul_nonneg hbeats.le hopen.factor
      exact ⟨hopen.start,hopen.factor,forall_orElse hopen.firstAdvance hadvance,hopen.graces⟩
  | chordLost hkind hread hstill hline =>
    exact ⟨hstill.forall hvoice,hline ▸ h.line.without_chord _⟩
  | chordEnd chord multiplier more hkind hchord hread hplaces hmore hturns hline =>
    have hmultiplier : 0 < multiplier := Beats.zero_eq ▸ readLength?_pos hread
    refine ⟨hturns.forall hvoice ?_,hline ▸ h.line.without_chord _⟩
    exact (h.line.chord chord hchord).close hnow hmultiplier.le hmore
  | brokenRhythm factor next hkind hfactors hlast hturns hline =>
    obtain ⟨hfactor,hnext⟩ := brokenFactors_pos hfactors
    exact ⟨hturns.forall hvoice (hnow.breakRhythm hfactor.le hnext.le),hline ▸ h.line⟩

theorem onAxis_initial : (initial : MusicState Rat).OnAxis where
  voice _ := ⟨Beats.zero_eq.ge,le_rfl,List.forall_mem_nil _,forall_mem_none,List.forall_mem_nil _⟩
  line := ⟨forall_mem_none,forall_mem_none⟩

theorem timeOf_apply (s : MusicState Rat) (op : VoiceTable.Operation Rat) (id : String) :
    ({ s with voices := s.voices.apply op } : MusicState Rat).timeOf id =
      { s.timeOf id with clock := (s.voices.apply op).clock id } :=
  congrArg ((s.memory id).timed _) (VoiceTable.notesOf_apply s.voices op id)

theorem OnAxis.move (h : s.OnAxis) (hrange : s.InRange) {m : MusicMove Rat} (hforward : m.Forward)
    (hm : s.move m = .ok t) : t.OnAxis := by
  cases m with
  | token token context =>
    obtain ⟨⟨u,problem⟩,hok,rfl⟩ := exists_of_map_ok hm
    exact h.passage hforward (hrange.passage hok)
  | endLine =>
    obtain rfl := Except.ok.inj hm
    exact ⟨h.voice,forall_mem_none,forall_mem_none⟩
  | startPart label =>
    obtain rfl := Except.ok.inj hm
    exact ⟨h.voice,h.line⟩
  | voices operation =>
    obtain rfl := Except.ok.inj hm
    refine ⟨fun id => ?_,h.line⟩
    have hid := h.voice id
    have hclock := VoiceTable.clock_le_apply hrange.active hforward id
    rw [timeOf_apply]
    exact ⟨hid.lastAdvance,hid.clock.trans hclock,hid.graces,hid.brokenNext,hid.notes⟩

/-! ## Whole runs -/

theorem OnAxis.run (h : s.OnAxis) (hrange : s.InRange) {moves : List (MusicMove Rat)}
    (hforward : ∀ m ∈ moves, m.Forward) (hrun : s.run moves = .ok t) : t.OnAxis := by
  have halong : s.Along (fun _ m => m.Forward) moves := along_of_forall hforward
  refine (halong.induction (I := fun s => s.OnAxis ∧ s.InRange) ⟨h,hrange⟩ ?_ hrun).1
  exact fun s t m hs hm ht => ⟨hs.1.move hs.2 hm ht,hs.2.move ht⟩

/-- No id is used for two voices. -/
theorem nodup_order_move (h : s.voices.order.Nodup) {m : MusicMove Rat} (hm : s.move m = .ok t) :
    t.voices.order.Nodup := by
  have hmarked : s.Marked fun _ => True := ⟨⟨h,fun _ _ _ _ => trivial⟩,trivial⟩
  cases m with
  | token token context =>
    obtain ⟨⟨u,problem⟩,hok,rfl⟩ := exists_of_map_ok hm
    exact (hmarked.handle token context u problem hok).notes.order
  | endLine => exact Except.ok.inj hm ▸ h
  | startPart label => exact Except.ok.inj hm ▸ h
  | voices operation =>
    exact Except.ok.inj hm ▸ (hmarked.notes.apply inParts_nil operation).order

/-- Along every run with positive unit lengths in which no time is taken back from outside, each
voice stands at or behind the end of the beats that its last note, chord or rest took, those beats
are not negative, and none of its notes starts before the first beat. -/
theorem run_onAxis {moves : List (MusicMove Rat)} (hforward : ∀ m ∈ moves, m.Forward)
    (hrun : initial.run moves = .ok s) :
    ∀ v ∈ s.voices.voices,
      0 ≤ (s.memory v.id).lastAdvance ∧
      ((s.memory v.id).lastAdvance ≤
        if s.voices.active = some v.id then s.voices.cursor else v.savedTime) ∧
      ∀ n ∈ v.notes, 0 ≤ n.start := by
  intro v hv
  have horder : s.voices.order.Nodup :=
    run_induction List.nodup_nil (fun _ _ _ hs hm => nodup_order_move hs hm) hrun
  have hfind : s.voices.find? v.id = some v := find?_of_nodup horder hv
  have hclock : s.voices.clock v.id =
      if s.voices.active = some v.id then s.voices.cursor else v.savedTime := by
    rw [VoiceTable.clock, hfind]
    rfl
  have haxis := (onAxis_initial.run inRange_initial hforward hrun).voice v.id
  refine ⟨haxis.lastAdvance,hclock ▸ haxis.clock,?_⟩
  exact VoiceTable.notesOf_of_find? hfind ▸ haxis.notes

/-- Broken rhythm takes a voice back three times, behind a sync and a rest in another voice. -/
theorem run_onAxis_broken :
    ∃ (moves : List (MusicMove Rat)) (s : MusicState Rat), (∀ m ∈ moves, m.Forward) ∧
      initial.run moves = .ok s ∧
      s.voices.voices.map (fun v => (v.id,(s.memory v.id).lastAdvance,s.voices.clock v.id)) =
        [("1",1/16,9/16),("2",1/2,1/2)] ∧
      ∀ v ∈ s.voices.voices,
        0 ≤ (s.memory v.id).lastAdvance ∧
        ((s.memory v.id).lastAdvance ≤
          if s.voices.active = some v.id then s.voices.cursor else v.savedTime) ∧
        ∀ n ∈ v.notes, 0 ≤ n.start := by
  let music (kind : TokenKind) (text : String) : MusicMove Rat :=
    .token ⟨kind,text.toList,1,1,[]⟩ .initial
  let moves : List (MusicMove Rat) := [.voices (.switchTo "1"),.voices (.switchTo "2"),
    music .rest "z",.voices .syncAll,.voices (.switchTo "1"),music .note "C",
    music .brokenRhythm "<",music .brokenRhythm "<",music .brokenRhythm "<"]
  have hunit : 0 < (MusicContext.initial : MusicContext Rat).unitLength := by decide +kernel
  have hforward : ∀ m ∈ moves, m.Forward := by
    simp [moves, music, MusicMove.Forward, VoiceTable.Operation.Forward, hunit]
  have hrun : ((initial.run moves).toOption.map fun s =>
      s.voices.voices.map fun v => (v.id,(s.memory v.id).lastAdvance,s.voices.clock v.id)) =
      some [("1",1/16,9/16),("2",1/2,1/2)] := by decide +kernel
  obtain ⟨s,hs,hvoices⟩ := exists_of_toOption_map hrun
  exact ⟨moves,s,hforward,hs,hvoices,run_onAxis hforward hs⟩

end MusicState

end AbcTune
