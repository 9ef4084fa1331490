import AbcTune.Proofs.Music.Ordered

/-! # Durations

A tie makes an earlier note last to the end of the note that is tied to it. Nothing keeps that end
from lying before the start of the earlier note, and that is the only way to a negative duration.
-/
namespace AbcTune

def VoiceTime.Lasting (x : VoiceTime Rat) : Prop := ∀ n ∈ x.notes, 0 ≤ n.duration

/-- A note that is placed lasts unless it is tied and ends before its start. -/
theorem Lands.lasting_iff {tied : List Nat} {pitch i : Nat} {start beats : Rat}
    {notes notes' : List (Note Rat)} (h : Lands tied pitch start beats notes i notes')
    (hbeats : 0 ≤ beats) (hnotes : ∀ n ∈ notes, 0 ≤ n.duration) :
    (∀ n ∈ notes', 0 ≤ n.duration) ↔
      ∀ j n, tiedPlace? notes pitch tied = some j → notes[j]? = some n → n.start ≤ start + beats := by
  cases h with
  | @tied i m hplace hm =>
    constructor
    · intro hall j n hj hn
      obtain rfl := Option.some.inj (hplace.symm.trans hj)
      obtain rfl := Option.some.inj (hm.symm.trans hn)
      have hi := (List.getElem?_eq_some_iff.mp hm).1
      have hwritten := hall _ (List.mem_of_getElem? (List.getElem?_set_self hi))
      exact sub_nonneg.mp hwritten
    · intro hends n hn
      rcases List.mem_or_eq_of_mem_set hn with hn | rfl
      · exact hnotes n hn
      · exact sub_nonneg.mpr (hends i m hplace hm)
  | @appended m hplace hstart hduration =>
    refine iff_of_true (fun n hn => ?_) fun j n hj _ => ?_
    · rcases List.mem_append.mp hn with hn | hn
      · exact hnotes n hn
      · rw [List.mem_singleton.mp hn, hduration]
        exact hbeats
    · cases hplace.symm.trans hj

namespace MusicState

/-- No note has a negative duration. -/
def Lasting (s : MusicState Rat) : Prop := ∀ v ∈ s.voices.voices, ∀ n ∈ v.notes, 0 ≤ n.duration

/-- A note goes into an earlier one that a tie goes on from, and ends before that one starts. -/
def TiesBack (s : MusicState Rat) : MusicMove Rat → Prop
  | .token token context =>
    token.kind = .note ∧ s.graceGroup = none ∧
      ∃ w pitch i n, WrittenNote.read? token.text = some w ∧
        s.pitchOf w context.key = some pitch ∧
        tiedPlace? s.time.notes pitch s.time.tiedFrom = some i ∧ s.time.notes[i]? = some n ∧
        s.noteStart (context.beats w.length) + s.noteBeats (context.beats w.length) < n.start
  | _ => False

variable {s t : MusicState Rat} {token : Token} {context : MusicContext Rat}

theorem lasting_iff (horder : s.voices.order.Nodup) :
    s.Lasting ↔ ∀ id, (s.timeOf id).Lasting := by
  constructor
  · intro h id n hn
    change n ∈ s.voices.notesOf id at hn
    cases hv : s.voices.find? id with
    | none =>
      rw [VoiceTable.notesOf, hv] at hn
      exact absurd hn List.not_mem_nil
    | some v =>
      rw [VoiceTable.notesOf_of_find? hv] at hn
      exact h v (List.mem_of_find?_eq_some hv) n hn
  · intro h v hv n hn
    have hfind : s.voices.find? v.id = some v := find?_of_nodup horder hv
    have hnotes : (s.timeOf v.id).notes = v.notes := VoiceTable.notesOf_of_find? hfind
    exact h v.id n (hnotes ▸ hn)

theorem not_tiesBack_iff {w : WrittenNote Rat} {pitch : Nat} (hkind : token.kind = .note)
    (hgroup : s.graceGroup = none) (hread : WrittenNote.read? token.text = some w)
    (hpitch : s.pitchOf w context.key = some pitch) :
    ¬ s.TiesBack (.token token context) ↔
      ∀ i n, tiedPlace? s.time.notes pitch s.time.tiedFrom = some i → s.time.notes[i]? = some n →
        n.start ≤ s.noteStart (context.beats w.length) + s.noteBeats (context.beats w.length) := by
  constructor
  · intro h i n hplace hn
    by_contra hback
    exact h ⟨hkind,hgroup,w,pitch,i,n,hread,hpitch,hplace,hn,not_le.mp hback⟩
  · rintro h ⟨-,-,w',pitch',i,n,hread',hpitch',hplace,hn,hback⟩
    obtain rfl := Option.some.inj (hread.symm.trans hread')
    obtain rfl := Option.some.inj (hpitch.symm.trans hpitch')
    exact absurd (h i n hplace hn) (not_le.mpr hback)

theorem not_tiesBack_of_kind (hkind : token.kind ≠ .note) :
    ¬ s.TiesBack (.token token context) := fun h => hkind h.1

theorem soundingBeats_nonneg {beats : Rat} (h : 0 ≤ beats) (staccato : Bool) :
    0 ≤ soundingBeats staccato beats := by
  unfold soundingBeats
  split <;> linarith

theorem OnAxis.noteBeats_nonneg (h : s.OnAxis) {nominal : Rat} (hnominal : 0 ≤ nominal) :
    0 ≤ s.noteBeats nominal := by
  refine soundingBeats_nonneg ?_ _
  cases hchord : s.chord with
  | some chord => exact mul_nonneg hnominal (h.line.chord chord hchord).factor
  | none =>
    have hadvance := h.advanceOf_nonneg hnominal
    have hborrowed : borrowedBeats s.time.graces _ ≤ _ := borrowedBeats_le hadvance
    dsimp only
    linarith

/-- Durations stay as they should just if a note is not tied back. -/
theorem OnAxis.lasting_passage_iff (h : s.OnAxis) (hrange : s.InRange)
    (hunit : 0 < context.unitLength) (hlasting : ∀ id, (s.timeOf id).Lasting)
    (hpassage : Passage s t token context) :
    (∀ id, (t.timeOf id).Lasting) ↔ ¬ s.TiesBack (.token token context) := by
  have hnow : s.time.Lasting := hlasting _
  have hwritten {x : VoiceTime Rat} (hturns : Turns s t x) :
      (∀ id, (t.timeOf id).Lasting) ↔ x.Lasting :=
    ⟨fun hall => hturns.voice ▸ hall _,hturns.forall hlasting⟩
  cases hpassage with
  | still hquiet hstill hline =>
    refine iff_of_true (hstill.forall hlasting) ?_
    rintro ⟨hkind,-,w,-,-,-,hread,-⟩
    cases (hquiet.note hkind).symm.trans hread
  | graceNote group w written hgroup hread hstill hline =>
    refine iff_of_true (hstill.forall hlasting) ?_
    rintro ⟨-,hnone,-⟩
    cases hgroup.symm.trans hnone
  | tuplet u hkind hread hstill | graceStart hkind hstill | chordLost hkind hread hstill =>
    exact iff_of_true (hstill.forall hlasting) (not_tiesBack_of_kind (hkind ▸ nofun))
  | tie hkind hturns | graceEnd group hkind hgroup hturns | rest length hkind hchord hread hturns
  | multiRest bars hkind hread hturns
  | chordStart chord hkind hchord hstart hnotes hfirst hfactor hgraces hturns =>
    exact iff_of_true (hturns.forall hlasting hnow) (not_tiesBack_of_kind (hkind ▸ nofun))
  | single w pitch i more notes hkind hgroup hchord hread hpitch hmore hplaced hturns hline =>
    have hbeats := MusicContext.beats_pos hunit (WrittenNote.read?_pos hread)
    have hfollow := hmore.follow (h.advanceOf_nonneg hbeats.le) (h.voice _).graces
    have hgraced : ∀ n ∈ s.time.notes ++ more, 0 ≤ n.duration :=
      List.forall_mem_append.mpr ⟨hnow,fun n hn => (hfollow n hn).2⟩
    rw [hwritten hturns, not_tiesBack_iff hkind hgroup hread hpitch]
    refine (hplaced.lasting_iff (h.noteBeats_nonneg hbeats.le) hgraced).trans ?_
    -- grace notes come behind the notes that a tie goes on from
    rw [tiedPlace?_append hrange.tiedFrom_time]
    refine forall₂_congr fun j n => imp_congr_right fun hj => ?_
    rw [List.getElem?_append_left (hrange.tiedFrom_time j (exists_of_tiedPlace? hj).1)]
  | chordNote chord w pitch i notes hkind hgroup hchord hread hpitch hplaced hturns hline =>
    have hbeats := MusicContext.beats_pos hunit (WrittenNote.read?_pos hread)
    rw [hwritten hturns, not_tiesBack_iff hkind hgroup hread hpitch]
    exact hplaced.lasting_iff (h.noteBeats_nonneg hbeats.le) hnow
  | chordEnd chord multiplier more hkind hchord hread hplaces hmore hturns hline =>
    have hopen := h.line.chord chord hchord
    have hmultiplier : 0 < multiplier := Beats.zero_eq ▸ readLength?_pos hread
    refine iff_of_true (hturns.forall hlasting ?_) (not_tiesBack_of_kind (hkind ▸ nofun))
    refine List.forall_mem_append.mpr ⟨forall_closedNotes ?_ ?_ hnow,fun n hn => ?_⟩
    · exact fun n hn => mul_nonneg hn hmultiplier.le
    · exact fun n _ => Beats.zero_le_later _
    · exact (hmore.follow (hopen.advance_nonneg hmultiplier.le) hopen.graces n hn).2
  | brokenRhythm factor next hkind hfactors hlast hturns hline =>
    refine iff_of_true (hturns.forall hlasting ?_) (not_tiesBack_of_kind (hkind ▸ nofun))
    exact forall_changeAt (f := stretch (s.time.clock - s.time.lastAdvance) factor)
      (fun n _ => Beats.zero_le_later _) hnow

/-! ## Whole runs -/

/-- What is known of a state that a run leads to. -/
structure Reached (s : MusicState Rat) : Prop where
  range : s.InRange
  axis : s.OnAxis
  order : s.voices.order.Nodup

theorem reached_initial : (initial : MusicState Rat).Reached :=
  ⟨inRange_initial,onAxis_initial,List.nodup_nil⟩

theorem Reached.move (h : s.Reached) {m : MusicMove Rat} (hforward : m.Forward)
    (hm : s.move m = .ok t) : t.Reached :=
  ⟨h.range.move hm,h.axis.move h.range hforward hm,nodup_order_move h.order hm⟩

theorem Reached.lasting_iff (h : s.Reached) (hlasting : s.Lasting) {m : MusicMove Rat}
    (hforward : m.Forward) : (∀ t, s.move m = .ok t → t.Lasting) ↔ ¬ s.TiesBack m := by
  cases m with
  | token token context =>
    cases hok : s.handle token context with
    | error fault =>
      obtain ⟨hkind,-⟩ := (h.range.handle_eq_error_iff token context).mp ⟨fault,hok⟩
      refine iff_of_true (fun t hm => ?_) (not_tiesBack_of_kind (hkind ▸ nofun))
      rw [MusicState.move, hok] at hm
      cases hm
    | ok result =>
      obtain ⟨t,problem⟩ := result
      have hm : s.move (.token token context) = .ok t := by rw [MusicState.move, hok]; rfl
      have hpassage := h.axis.lasting_passage_iff h.range hforward
        ((MusicState.lasting_iff h.order).mp hlasting) (h.range.passage hok)
      rw [← hpassage, ← MusicState.lasting_iff (h.move hforward hm).order, hm]
      exact ⟨fun hall => hall t rfl,fun ht u hu => Except.ok.inj hu ▸ ht⟩
  | endLine =>
    refine iff_of_true (fun t hm => ?_) id
    exact Except.ok.inj hm ▸ hlasting
  | startPart label =>
    refine iff_of_true (fun t hm => ?_) id
    exact Except.ok.inj hm ▸ hlasting
  | voices operation =>
    refine iff_of_true (fun t hm => ?_) id
    have horder := (h.move hforward hm).order
    obtain rfl := Except.ok.inj hm
    refine (MusicState.lasting_iff horder).mpr fun id => ?_
    rw [timeOf_apply]
    exact (MusicState.lasting_iff h.order).mp hlasting id

/-- What is tied to a note in order ends behind its start. -/
theorem InOrder.not_tiesBack (h : s.InOrder) (haxis : s.OnAxis) {m : MusicMove Rat}
    (hforward : m.Forward) : ¬ s.TiesBack m := by
  cases m with
  | token token context =>
    rintro ⟨-,-,w,pitch,i,n,hread,-,hplace,hn,hback⟩
    have hbeats := MusicContext.beats_pos hforward (WrittenNote.read?_pos hread)
    have hlong := haxis.noteBeats_nonneg hbeats.le
    have hi := List.mem_append_right s.time.lastGroup (exists_of_tiedPlace? hplace).1
    have hstart : n.start ≤ s.noteStart (context.beats w.length) := by
      cases hchord : s.chord with
      | some chord =>
        rw [noteStart, hchord]
        exact ((h.chord_time hchord).2.behind i hi n hn).le
      | none =>
        obtain ⟨hlast,hbehind⟩ := h.time.behind i hi n hn
        rw [h.noteStart_eq hchord]
        linarith
    linarith
  | endLine | startPart | voices => exact id

/-- Along every run with positive unit lengths all notes last for no negative time just if no note
is tied to one that starts behind its end. This is so where music is in order: where there are no
grace notes, and neither broken rhythm nor another voice inside a chord. -/
theorem run_lasting_iff {moves : List (MusicMove Rat)} (hforward : ∀ m ∈ moves, m.Forward) :
    (initial.Along (fun s m => ∀ t, s.move m = .ok t → t.Lasting) moves ↔
      initial.Along (fun s m => ¬ s.TiesBack m) moves) ∧
    (initial.Along Orders moves →
      initial.Along (fun s m => ∀ t, s.move m = .ok t → t.Lasting) moves) := by
  have hforward : (initial : MusicState Rat).Along (fun _ m => m.Forward) moves :=
    along_of_forall hforward
  have hinitial : (initial : MusicState Rat).Lasting := List.forall_mem_nil _
  have hforth := fun h : initial.Along (fun s m => ∀ t, s.move m = .ok t → t.Lasting) moves =>
    (hforward.and h).imp (Q := fun s m => ¬ s.TiesBack m)
      (I := fun s => s.Reached ∧ s.Lasting) ⟨reached_initial,hinitial⟩
      (fun s t m hs hm ht => ⟨hs.1.move hm.1 ht,hm.2 t ht⟩)
      (fun s m hs hm => (hs.1.lasting_iff hs.2 hm.1).mp hm.2)
  have hback := fun h : initial.Along (fun s m => ¬ s.TiesBack m) moves =>
    (hforward.and h).imp (Q := fun s m => ∀ t, s.move m = .ok t → t.Lasting)
      (I := fun s => s.Reached ∧ s.Lasting) ⟨reached_initial,hinitial⟩
      (fun s t m hs hm ht => ⟨hs.1.move hm.1 ht,(hs.1.lasting_iff hs.2 hm.1).mpr hm.2 t ht⟩)
      (fun s m hs hm => (hs.1.lasting_iff hs.2 hm.1).mpr hm.2)
  refine ⟨⟨hforth,hback⟩,fun horders => hback ?_⟩
  exact (hforward.and horders).imp (I := fun s => s.Reached ∧ s.InOrder)
    ⟨reached_initial,inOrder_initial⟩
    (fun s t m hs hm ht => ⟨hs.1.move hm.1 ht,hs.2.move hs.1.range hm.1 hm.2 ht⟩)
    (fun s m hs hm => hs.2.not_tiesBack hs.1.axis hm.1)

/-- A note, and a chord with a length that is tied to it. -/
theorem run_lasting_tied :
    ∃ moves : List (MusicMove Rat), (∀ m ∈ moves, m.Forward) ∧ initial.Along Orders moves ∧
      initial.Along (fun s m => ∀ t, s.move m = .ok t → t.Lasting) moves := by
  let music (kind : TokenKind) (text : String) : MusicMove Rat :=
    .token ⟨kind,text.toList,1,1,[]⟩ .initial
  let moves : List (MusicMove Rat) := [music .note "C",music .tie "-",music .chordStart "[",
    music .note "C",music .note "E",music .chordEnd "]2"]
  have hunit : 0 < (MusicContext.initial : MusicContext Rat).unitLength := by decide +kernel
  have hforward : ∀ m ∈ moves, m.Forward := by
    simp [moves, music, MusicMove.Forward, hunit]
  have horders : initial.Along Orders moves := by
    simp [moves, music, Along, Orders]
  obtain ⟨-,hlasting⟩ := run_lasting_iff hforward
  exact ⟨moves,hforward,horders,hlasting horders⟩

/-- A note behind a grace note, which broken rhythm makes so short that the next note ends before
it starts. -/
theorem run_lasting_tiedBack :
    ∃ (moves : List (MusicMove Rat)) (s : MusicState Rat), (∀ m ∈ moves, m.Forward) ∧
      initial.run moves = .ok s ∧
      s.voices.voices.map (fun v => v.notes.map fun n => (n.start,n.duration)) =
        [[(0,1/4),(1/4,-33/256)]] ∧ ¬ s.Lasting := by
  let music (kind : TokenKind) (text : String) : MusicMove Rat :=
    .token ⟨kind,text.toList,1,1,[]⟩ .initial
  let moves : List (MusicMove Rat) := [music .graceStart "\x7b",music .note "c",
    music .graceEnd "\x7d",music .note "C",music .brokenRhythm "<<<",music .tie "-",
    music .note "C/16"]
  have hunit : 0 < (MusicContext.initial : MusicContext Rat).unitLength := by decide +kernel
  have hforward : ∀ m ∈ moves, m.Forward := by
    simp [moves, music, MusicMove.Forward, hunit]
  have hrun : ((initial.run moves).toOption.map fun s =>
      s.voices.voices.map fun v => v.notes.map fun n => (n.start,n.duration)) =
      some [[(0,1/4),(1/4,-33/256)]] := by decide +kernel
  obtain ⟨s,hs,hnotes⟩ := exists_of_toOption_map hrun
  refine ⟨moves,s,hforward,hs,hnotes,fun hlasting => ?_⟩
  have hall : ∀ times ∈ s.voices.voices.map (fun v => v.notes.map fun n => (n.start,n.duration)),
      ∀ time ∈ times, (0 : Rat) ≤ time.2 := by
    simp only [List.forall_mem_map]
    exact hlasting
  rw [hnotes] at hall
  exact absurd hall (by decide +kernel)

end MusicState
end AbcTune
