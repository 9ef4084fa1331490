import AbcTune.Proofs.Music.Ordered

/-! # Ends of tied notes

A note that is tied goes into an earlier note of its pitch, which then ends where the tied note is
written to end. But the end of a chord multiplies the whole of each note of the chord, and so also
what a tied note has taken before the chord.
-/
namespace AbcTune

/-! ## Notes of a group -/

theorem Note.iterate_multiply (multiplier : Rat) (times : Nat) (n : Note Rat) :
    (Note.multiply multiplier)^[times] n =
      { n with duration := n.duration * multiplier ^ times } := by
  induction times generalizing n with
  | zero => rw [pow_zero, mul_one, Function.iterate_zero_apply]
  | succ times ih =>
    rw [Function.iterate_succ_apply, ih, pow_succ', ← mul_assoc]
    rfl

/-- Beats before a chord are left alone only by a chord without a length of its own. -/
theorem mul_pow_eq_add_iff {before beats multiplier : Rat} (hbefore : 0 < before)
    (hbeats : 0 ≤ beats) (hmultiplier : 0 < multiplier) {times : Nat} (htimes : times ≠ 0) :
    (before + beats) * multiplier ^ times = before + beats * multiplier ↔ multiplier = 1 := by
  have hboth : 0 ≤ before + beats := by linarith
  refine ⟨fun heq => ?_,fun hone => by rw [hone, one_pow, mul_one, mul_one]⟩
  rcases lt_trichotomy multiplier 1 with hlt | hone | hgt
  · have hpow := pow_le_of_le_one hmultiplier.le hlt.le htimes
    have hshort := mul_le_mul_of_nonneg_left hpow hboth
    have hless := mul_lt_mul_of_pos_left hlt hbefore
    linarith
  · exact hone
  · have hpow := le_self_pow₀ hgt.le htimes
    have hlong := mul_le_mul_of_nonneg_left hpow hboth
    have hmore := mul_lt_mul_of_pos_left hgt hbefore
    linarith

/-- A note of a chord, or a note by itself: the place that it is written at and its beats. -/
structure GroupNote where
  place : Nat
  beats : Rat
  deriving DecidableEq

/-- A note of a group ends where it is written to end. -/
def GroupNote.Ends (start factor : Rat) (notes : List (Note Rat)) (g : GroupNote) : Prop :=
  notes[g.place]?.map (·.stop) = some (start + g.beats * factor)

instance (start factor : Rat) (notes : List (Note Rat)) (g : GroupNote) :
    Decidable (g.Ends start factor notes) :=
  inferInstanceAs (Decidable (notes[g.place]?.map (·.stop) = some (start + g.beats * factor)))

/-- Notes of a voice while a chord is open that has the given notes and before which the voice had
some number of notes. Each note that is new starts with the chord and is in it once, and those that
were there start earlier and end with one of the notes that were tied to them. -/
structure Gathered (start factor : Rat) (old : Nat) (group : List GroupNote)
    (notes : List (Note Rat)) : Prop where
  length : old ≤ notes.length
  fresh : ∀ g ∈ group, old ≤ g.place → (group.map (·.place)).count g.place = 1 ∧
    ∃ n, notes[g.place]? = some n ∧ n.start = start ∧ n.stop = start + g.beats * factor
  tied : ∀ g ∈ group, g.place < old → ∃ n, notes[g.place]? = some n ∧ n.start < start ∧
    ∃ last ∈ group, last.place = g.place ∧ n.stop = start + last.beats * factor

section Gathered

variable {start factor : Rat} {old : Nat} {group : List GroupNote} {notes notes' : List (Note Rat)}

theorem gathered_nil (hlength : old ≤ notes.length) : Gathered start factor old [] notes :=
  ⟨hlength,List.forall_mem_nil _,List.forall_mem_nil _⟩

theorem Gathered.place_lt (h : Gathered start factor old group notes) {g : GroupNote}
    (hg : g ∈ group) : g.place < notes.length := by
  rcases Nat.lt_or_ge g.place old with hlt | hge
  · exact hlt.trans_le h.length
  · obtain ⟨-,n,hn,-⟩ := h.fresh g hg hge
    exact (List.getElem?_eq_some_iff.mp hn).1

/-- A note that is placed is new and behind all others, or it is tied to one before the chord. -/
theorem Gathered.placed (h : Gathered start factor old group notes) {tied : List Nat}
    {pitch i : Nat} {beats : Rat}
    (hplaced : Lands tied pitch start (beats * factor) notes i notes')
    (htied : ∀ j ∈ tied, j < old ∧ ∀ n ∈ notes[j]?, n.start < start) :
    Gathered start factor old (group ++ [⟨i,beats⟩]) notes' := by
  obtain ⟨n,hn,hstop⟩ := hplaced.stop
  -- only notes from before the chord are tied to, so what is new is in the chord just once
  have hnew : (i < old ∧ n.start < start) ∨
      (old ≤ i ∧ n.start = start ∧ ∀ g ∈ group, g.place ≠ i) := by
    cases hplaced with
    | @tied i m hplace hm =>
      obtain ⟨hi,hstart⟩ := htied i (exists_of_tiedPlace? hplace).1
      rw [List.getElem?_set_self (hi.trans_le h.length)] at hn
      exact .inl ⟨hi,(Option.some.inj hn) ▸ hstart m hm⟩
    | @appended m hplace hstart hduration =>
      rw [List.getElem?_concat_length] at hn
      exact .inr ⟨h.length,(Option.some.inj hn) ▸ hstart,fun g hg => (h.place_lt hg).ne⟩
  have hlength : old ≤ notes'.length := by
    cases hplaced with
    | tied hplace hm => exact h.length.trans_eq List.length_set.symm
    | appended hplace hstart hduration => exact h.length.trans (by simp)
  refine ⟨hlength,fun g hg hold => ?_,fun g hg hold => ?_⟩
  · rw [List.map_append, List.count_append, List.map_singleton, List.count_singleton]
    rcases List.mem_append.mp hg with hg | hg
    · obtain ⟨hcount,hfresh⟩ := h.fresh g hg hold
      have hne : g.place ≠ i := by
        rcases hnew with ⟨hi,-⟩ | ⟨-,-,hothers⟩
        · omega
        · exact hothers g hg
      rw [hplaced.others hne, hcount, if_neg (by simpa using hne.symm)]
      exact ⟨rfl,hfresh⟩
    · obtain rfl := List.mem_singleton.mp hg
      rcases hnew with ⟨hi,-⟩ | ⟨-,hstart,hothers⟩
      · exact absurd hold (Nat.not_le_of_lt hi)
      · have hcount : (group.map (·.place)).count i = 0 := by
          refine List.count_eq_zero_of_not_mem fun hi => ?_
          obtain ⟨g,hg,hplace⟩ := List.mem_map.mp hi
          exact hothers g hg hplace
        rw [hcount, if_pos (beq_self_eq_true i)]
        exact ⟨rfl,n,hn,hstart,hstop⟩
  · have hlast : (⟨i,beats⟩ : GroupNote) ∈ group ++ [⟨i,beats⟩] := by simp
    by_cases hplace : g.place = i
    · rcases hnew with ⟨-,hstart⟩ | ⟨hi,-⟩
      · exact ⟨n,hplace ▸ hn,hstart,⟨i,beats⟩,hlast,hplace.symm,hstop⟩
      · omega
    · have hg : g ∈ group := by
        rcases List.mem_append.mp hg with hg | hg
        · exact hg
        · obtain rfl := List.mem_singleton.mp hg
          exact absurd rfl hplace
      obtain ⟨m,hm,hstart,last,hlast,hlastPlace,hlastStop⟩ := h.tied g hg hold
      rw [hplaced.others hplace]
      exact ⟨m,hm,hstart,last,List.mem_append_left _ hlast,hlastPlace,hlastStop⟩

/-- The end of a chord leaves its notes where they are written to end just if it does not multiply
notes that were there before, and if those that were tied to one of these take the same beats. -/
theorem Gathered.ends_iff (h : Gathered start factor old group notes) (hfactor : 0 < factor)
    (hbeats : ∀ g ∈ group, 0 < g.beats) {multiplier : Rat} (hmultiplier : 0 < multiplier) :
    (∀ g ∈ group, g.Ends start (factor * multiplier)
      (changeAt (Note.multiply multiplier) (group.map (·.place)) notes)) ↔
    ∀ g ∈ group, g.place < old → multiplier = 1 ∧
      ∀ g' ∈ group, g'.place = g.place → g'.beats = g.beats := by
  have hclosed {g : GroupNote} {n : Note Rat} (hn : notes[g.place]? = some n) :
      g.Ends start (factor * multiplier)
          (changeAt (Note.multiply multiplier) (group.map (·.place)) notes) ↔
        n.start + n.duration * multiplier ^ (group.map (·.place)).count g.place =
          start + g.beats * (factor * multiplier) := by
    rw [GroupNote.Ends, getElem?_changeAt, hn, Option.map_some, Note.iterate_multiply,
      Option.map_some, Option.some_inj]
    rfl
  constructor
  · intro hends g hg hold
    obtain ⟨n,hn,hstart,last,hlast,hplace,hstop⟩ := h.tied g hg hold
    have hduration : n.duration = (start - n.start) + last.beats * factor := by
      unfold Note.stop at hstop
      linarith
    have hcount : (group.map (·.place)).count last.place ≠ 0 :=
      (List.count_pos_iff.mpr (List.mem_map_of_mem hlast)).ne'
    -- the last note that was tied to this one already ends there before the chord is closed
    have hone : multiplier = 1 := by
      refine (mul_pow_eq_add_iff (sub_pos.mpr hstart)
        (mul_pos (hbeats last hlast) hfactor).le hmultiplier hcount).mp ?_
      have hend := (hclosed (hplace ▸ hn)).mp (hends last hlast)
      rw [hduration] at hend
      linarith
    have hsame : ∀ g' ∈ group, g'.place = g.place → g'.beats = last.beats := by
      intro g' hg' hplace'
      have hend := (hclosed (hplace' ▸ hn)).mp (hends g' hg')
      rw [hduration, hone, one_pow, mul_one, mul_one] at hend
      have hproduct : g'.beats * factor = last.beats * factor := by linarith
      exact mul_right_cancel₀ hfactor.ne' hproduct
    exact ⟨hone,fun g' hg' hplace' => (hsame g' hg' hplace').trans (hsame g hg rfl).symm⟩
  · intro hsame g hg
    rcases Nat.lt_or_ge g.place old with hold | hold
    · obtain ⟨n,hn,-,last,hlast,hplace,hstop⟩ := h.tied g hg hold
      obtain ⟨hone,hequal⟩ := hsame g hg hold
      rw [hclosed hn, hone, one_pow, mul_one, mul_one, ← hequal last hlast hplace]
      exact hstop
    · obtain ⟨hcount,n,hn,hstart,hstop⟩ := h.fresh g hg hold
      have hduration : n.duration = g.beats * factor := by
        unfold Note.stop at hstop
        linarith
      rw [hclosed hn, hcount, pow_one, hstart, hduration, mul_assoc]

end Gathered

/-! ## What music writes -/

/-- Moves that leave an open chord open. -/
def MusicMove.Inside : MusicMove Rat → Prop
  | .token t _ => t.kind ≠ .chordEnd
  | .endLine => False
  | .startPart _ | .voices _ => True

namespace MusicState

/-- The note that a move writes outside grace notes: into the note of its pitch that a tie goes on
from, or else behind all notes. -/
def groupNote? (s : MusicState Rat) : MusicMove Rat → Option GroupNote
  | .token token context =>
    if token.kind = .note then do
      let w ← WrittenNote.read? token.text
      let pitch ← s.pitchOf w context.key
      let place := (tiedPlace? s.time.notes pitch s.time.tiedFrom).getD s.time.notes.length
      some ⟨place,context.beats w.length⟩
    else none
  | _ => none

def groupNotes (s : MusicState Rat) : List (MusicMove Rat) → List GroupNote
  | [] => []
  | m :: rest => (s.groupNote? m).toList ++
    match s.move m with
    | .ok t => t.groupNotes rest
    | .error _ => []

/-- Moves inside a chord that leave music in order and cut no note short. -/
structure InsideChord (s : MusicState Rat) (m : MusicMove Rat) : Prop where
  forward : m.Forward
  orders : s.Orders m
  inside : m.Inside
  whole : s.staccato = false

variable {s t u : MusicState Rat} {token : Token} {context : MusicContext Rat}

theorem groupNotes_singleton (m : MusicMove Rat) :
    s.groupNotes [m] = (s.groupNote? m).toList := by
  unfold groupNotes
  cases s.move m with
  | error fault => exact List.append_nil _
  | ok t => exact List.append_nil _

theorem groupNotes_append {moves : List (MusicMove Rat)} (hrun : s.run moves = .ok t)
    (more : List (MusicMove Rat)) :
    s.groupNotes (moves ++ more) = s.groupNotes moves ++ t.groupNotes more := by
  induction moves generalizing s with
  | nil => rw [List.nil_append, Except.ok.inj hrun, groupNotes, List.nil_append]
  | cons m rest ih =>
    obtain ⟨u,hu,hrun⟩ := exists_of_bind_ok hrun
    rw [List.cons_append, groupNotes, groupNotes, hu, List.append_assoc]
    exact congrArg _ (ih hrun)

theorem groupNote?_of_kind (hkind : token.kind ≠ .note) :
    s.groupNote? (.token token context) = none := if_neg hkind

/-- The notes of a chord are those that are written inside it. -/
theorem groupNotes_chord {last : Token} {context' : MusicContext Rat} {inner : List (MusicMove Rat)}
    (hfirst : token.kind = .chordStart) (hopen : s.move (.token token context) = .ok t)
    (hinner : t.run inner = .ok u) (hlast : last.kind = .chordEnd) :
    s.groupNotes (.token token context :: inner ++ [.token last context']) = t.groupNotes inner := by
  rw [List.cons_append, groupNotes, hopen, groupNote?_of_kind (hfirst ▸ nofun)]
  dsimp only
  rw [groupNotes_append hinner, groupNotes_singleton, groupNote?_of_kind (hlast ▸ nofun),
    Option.toList_none, List.nil_append, List.append_nil]

theorem groupNote?_of_read_none (hread : WrittenNote.read? (β := Rat) token.text = none) :
    s.groupNote? (.token token context) = none := by
  rw [groupNote?, hread]
  exact ite_self _

theorem groupNote?_of_pitchOf {w : WrittenNote Rat} {pitch : Nat} (hkind : token.kind = .note)
    (hread : WrittenNote.read? token.text = some w)
    (hpitch : s.pitchOf w context.key = some pitch) :
    s.groupNote? (.token token context) =
      some ⟨(tiedPlace? s.time.notes pitch s.time.tiedFrom).getD s.time.notes.length,
        context.beats w.length⟩ := by
  rw [groupNote?, if_pos hkind, hread, Option.bind_eq_bind, Option.bind_some, hpitch]
  rfl

/-- Inside a chord that a voice is in: the notes of the chord so far, and those before it that a
tie may still go on from. -/
structure Gathers (id : String) (start factor : Rat) (old : Nat) (group : List GroupNote)
    (s : MusicState Rat) : Prop where
  range : s.InRange
  order : s.InOrder
  active : s.voices.active = some id
  chord : ∃ chord, s.chord = some chord ∧ chord.start = start ∧ chord.factor = factor ∧
    chord.notes = group.map (·.place)
  beats : ∀ g ∈ group, 0 < g.beats
  behind : ∀ i ∈ (s.timeOf id).lastGroup ++ (s.timeOf id).tiedFrom, i < old
  gathered : Gathered start factor old group (s.timeOf id).notes

section Gathers

variable {id : String} {start factor : Rat} {old : Nat} {group : List GroupNote}

theorem Gathers.time_eq (h : Gathers id start factor old group s) : s.time = s.timeOf id :=
  congrArg s.timeOf (VoiceTable.noteVoice_of_active h.active)

theorem Gathers.without_note (h : Gathers id start factor old group t) {m : MusicMove Rat}
    (hnone : s.groupNote? m = none) :
    Gathers id start factor old (group ++ (s.groupNote? m).toList) t := by
  rw [hnone, Option.toList_none, List.append_nil]
  exact h

/-- Most moves leave the chord and the notes as they are. -/
theorem Gathers.keep (h : Gathers id start factor old group s) (hrange : t.InRange)
    (horder : t.InOrder) (hactive : t.voices.active = some id) (hchord : t.chord = s.chord)
    (hnotes : (t.timeOf id).notes = (s.timeOf id).notes)
    (hbehind : ∀ i ∈ (t.timeOf id).lastGroup ++ (t.timeOf id).tiedFrom,
      i ∈ (s.timeOf id).lastGroup ++ (s.timeOf id).tiedFrom) :
    Gathers id start factor old group t :=
  ⟨hrange,horder,hactive,hchord ▸ h.chord,h.beats,fun i hi => h.behind i (hbehind i hi),
    hnotes ▸ h.gathered⟩

theorem Gathers.still (h : Gathers id start factor old group s) (hrange : t.InRange)
    (horder : t.InOrder) (hstill : Still s t) (hchord : t.chord = s.chord) :
    Gathers id start factor old group t :=
  have htime := hstill.voice id
  h.keep hrange horder (hstill.active id h.active) hchord (congrArg VoiceTime.notes htime)
    fun _ hi => htime ▸ hi

theorem Gathers.turns (h : Gathers id start factor old group s) (hrange : t.InRange)
    (horder : t.InOrder) {x : VoiceTime Rat} (hturns : Turns s t x) (hchord : t.chord = s.chord)
    (hnotes : x.notes = s.time.notes)
    (hbehind : ∀ i ∈ x.lastGroup ++ x.tiedFrom, i ∈ s.time.lastGroup ++ s.time.tiedFrom) :
    Gathers id start factor old group t := by
  have hid : s.voices.noteVoice = id := VoiceTable.noteVoice_of_active h.active
  have hx : t.timeOf id = x := hid ▸ hturns.voice
  rw [h.time_eq] at hnotes hbehind
  exact h.keep hrange horder (hid ▸ hturns.active) hchord (hx ▸ hnotes) (hx ▸ hbehind)

/-- A note that is read joins those of the chord. -/
theorem Gathers.join (h : Gathers id start factor old group s) (hrange : t.InRange)
    (horder : t.InOrder) {pitch i : Nat} {beats : Rat} {notes : List (Note Rat)}
    (hbeats : 0 < beats)
    (hplaced : Lands s.time.tiedFrom pitch start (beats * factor) s.time.notes i notes)
    (hturns : Turns s t { s.time with notes })
    (hchord : ∃ chord, t.chord = some chord ∧ chord.start = start ∧ chord.factor = factor ∧
      chord.notes = group.map (·.place) ++ [i]) :
    Gathers id start factor old (group ++ [⟨i,beats⟩]) t := by
  have hid : s.voices.noteVoice = id := VoiceTable.noteVoice_of_active h.active
  have hx : t.timeOf id = { s.time with notes } := hid ▸ hturns.voice
  obtain ⟨chord,hopen,hstart,-⟩ := h.chord
  obtain ⟨-,hbefore⟩ := h.order.chord_time hopen
  have hplaces : (group ++ [GroupNote.mk i beats]).map (·.place) = group.map (·.place) ++ [i] :=
    List.map_append
  refine ⟨hrange,horder,hid ▸ hturns.active,hplaces ▸ hchord,fun g hg => ?_,?_,?_⟩
  · rcases List.mem_append.mp hg with hg | hg
    · exact h.beats g hg
    · exact (List.mem_singleton.mp hg) ▸ hbeats
  · rw [hx, h.time_eq]
    exact h.behind
  · rw [hx]
    refine (h.time_eq ▸ h.gathered).placed hplaced fun j hj => ?_
    have hj := List.mem_append_right s.time.lastGroup hj
    exact ⟨h.behind j (h.time_eq ▸ hj),fun n hn => hstart ▸ hbefore.behind j hj n hn⟩

theorem Gathers.passage (h : Gathers id start factor old group s)
    (hinside : s.InsideChord (.token token context)) (hrange : t.InRange) (horder : t.InOrder)
    (hpassage : Passage s t token context) :
    Gathers id start factor old (group ++ (s.groupNote? (.token token context)).toList) t := by
  obtain ⟨hunit,horders,hopen,hwhole⟩ := hinside
  obtain ⟨chord,hchord,hstart,hfactor,hplaces⟩ := h.chord
  cases hpassage with
  | still hquiet hstill hline =>
    refine (h.still hrange horder hstill (congrArg OpenLine.chord hline)).without_note ?_
    by_cases hkind : token.kind = .note
    · exact groupNote?_of_read_none (hquiet.note hkind)
    · exact groupNote?_of_kind hkind
  | tuplet u hkind hread hstill hline =>
    exact (h.still hrange horder hstill (congrArg OpenLine.chord hline)).without_note
      (groupNote?_of_kind (hkind ▸ nofun))
  | tie hkind hturns hline =>
    refine (h.turns hrange horder hturns (congrArg OpenLine.chord hline) rfl ?_).without_note
      (groupNote?_of_kind (hkind ▸ nofun))
    intro i hi
    rw [List.mem_append, or_self] at hi
    exact List.mem_append_left _ hi
  | multiRest bars hkind hread hturns hline =>
    exact (h.turns hrange horder hturns (congrArg OpenLine.chord hline) rfl
      (List.forall_mem_nil _)).without_note (groupNote?_of_kind (hkind ▸ nofun))
  | chordNote opened w pitch i notes hkind hgroup hsome hread hpitch hplaced hturns hline =>
    obtain rfl := Option.some.inj (hchord.symm.trans hsome)
    rw [groupNote?_of_pitchOf hkind hread hpitch, Option.toList_some, ← hplaced.place_eq]
    rw [noteStart, noteBeats, hwhole, hchord, soundingBeats, if_neg Bool.false_ne_true] at hplaced
    dsimp only at hplaced
    rw [hstart, hfactor] at hplaced
    exact h.join hrange horder (MusicContext.beats_pos hunit (WrittenNote.read?_pos hread))
      hplaced hturns ⟨_,congrArg OpenLine.chord hline,hstart,hfactor,congrArg (· ++ [i]) hplaces⟩
  | graceStart hkind hstill hline => exact absurd hkind horders.1
  | graceNote grace w written hgroup | graceEnd grace hkind hgroup =>
    cases h.order.graceGroup.symm.trans hgroup
  | rest length hkind hnone | single w pitch i more notes hkind hgroup hnone
  | chordStart chord hkind hnone => cases hchord.symm.trans hnone
  | chordLost hkind | chordEnd opened multiplier more hkind => exact absurd hkind hopen
  | brokenRhythm factor next hkind => cases (horders.2 hkind).symm.trans hchord

theorem Gathers.move (h : Gathers id start factor old group s) {m : MusicMove Rat}
    (hinside : s.InsideChord m) (hm : s.move m = .ok t) :
    Gathers id start factor old (group ++ (s.groupNote? m).toList) t := by
  have hrange := h.range.move hm
  have horder := h.order.move h.range hinside.forward hinside.orders hm
  cases m with
  | token token context =>
    obtain ⟨⟨u,problem⟩,hok,rfl⟩ := exists_of_map_ok hm
    exact h.passage hinside hrange horder (h.range.passage hok)
  | endLine => exact hinside.inside.elim
  | startPart label =>
    obtain rfl := Except.ok.inj hm
    exact (h.keep hrange horder h.active rfl rfl fun _ hi => hi).without_note rfl
  | voices operation =>
    obtain rfl := Except.ok.inj hm
    have hactive : (s.voices.apply operation).active = some id := by
      refine active_apply h.active ?_
      rintro other rfl
      obtain ⟨chord,hchord,-⟩ := h.chord
      cases hchord.symm.trans hinside.orders
    refine (h.keep hrange horder hactive rfl ?_ fun i hi => ?_).without_note rfl
    · rw [timeOf_apply]
    · rw [timeOf_apply] at hi
      exact hi

theorem Gathers.run (h : Gathers id start factor old group s) {moves : List (MusicMove Rat)}
    (hinside : s.Along InsideChord moves) (hrun : s.run moves = .ok t) :
    Gathers id start factor old (group ++ s.groupNotes moves) t := by
  induction moves generalizing s group with
  | nil =>
    rw [groupNotes, List.append_nil]
    exact Except.ok.inj hrun ▸ h
  | cons m rest ih =>
    obtain ⟨u,hm,hrun⟩ := exists_of_bind_ok hrun
    rw [groupNotes, hm, ← List.append_assoc]
    exact ih (h.move hinside.1 hm) (hinside.2 u hm) hrun

/-- A chord that is opened starts at the clock of its voice, with its tuplets. -/
theorem gathers_of_chordStart (hrange : s.InRange) (horder : s.InOrder) (hchord : s.chord = none)
    (hkind : token.kind = .chordStart) (hunit : 0 < context.unitLength)
    (hm : s.move (.token token context) = .ok t) :
    Gathers s.voices.noteVoice s.time.clock (s.advanceOf 1) s.time.notes.length [] t := by
  have hforward : (MusicMove.token token context).Forward := hunit
  have horders : s.Orders (.token token context) := by
    refine ⟨?_,fun _ => hchord⟩
    rw [hkind]
    nofun
  have hrange' := hrange.move hm
  have horder' := horder.move hrange hforward horders hm
  obtain ⟨⟨t,problem⟩,hok,rfl⟩ := exists_of_map_ok hm
  have hpassage := hrange.passage hok
  cases hpassage with
  | chordStart chord hkind hnone hstart hnotes hfirst hfactor hgraces hturns hline =>
    refine ⟨hrange',horder',hturns.active,
      ⟨chord,congrArg OpenLine.chord hline,hstart,hfactor,hnotes⟩,List.forall_mem_nil _,?_,?_⟩
    · rw [hturns.voice]
      exact hrange.behind_time
    · rw [hturns.voice]
      exact gathered_nil le_rfl
  | still hquiet hsame hline =>
    rcases hquiet.chordStart hkind with hopen | hgroup
    · rw [hchord] at hopen
      cases hopen
    · rw [horder.graceGroup] at hgroup
      cases hgroup
  | graceNote grace w written hgroup | graceEnd grace hkind' hgroup =>
    cases horder.graceGroup.symm.trans hgroup
  | tuplet u hkind' | tie hkind' | graceStart hkind' | rest length hkind' | multiRest bars hkind'
  | single w pitch i more notes hkind' | chordNote opened w pitch i notes hkind'
  | chordLost hkind' | chordEnd opened multiplier more hkind'
  | brokenRhythm factor next hkind' => cases hkind.symm.trans hkind'

/-- A chord ends as written just if its length leaves the notes alone that were there before it,
and if those that go into one of these take the same beats. -/
theorem Gathers.ends_iff (h : Gathers id start factor old group s) (hkind : token.kind = .chordEnd)
    {multiplier : Rat} (hread : readLength? (token.text.drop 1) = some multiplier)
    (hm : s.move (.token token context) = .ok t) :
    (∀ g ∈ group, g.Ends start (factor * multiplier) t.time.notes) ↔
      ∀ g ∈ group, g.place < old → multiplier = 1 ∧
        ∀ g' ∈ group, g'.place = g.place → g'.beats = g.beats := by
  obtain ⟨⟨t,problem⟩,hok,rfl⟩ := exists_of_map_ok hm
  obtain ⟨chord,hchord,hstart,hfactor,hplaces⟩ := h.chord
  have hmultiplier : 0 < multiplier := Beats.zero_eq ▸ readLength?_pos hread
  have hpassage := h.range.passage hok
  cases hpassage with
  | chordEnd opened m more hkind hsome hread' hlt hmore hturns hline =>
    obtain rfl := Option.some.inj (hchord.symm.trans hsome)
    obtain rfl := Option.some.inj (hread.symm.trans hread')
    obtain ⟨-,hopen⟩ := h.order.chord_time hchord
    obtain rfl := hmore.empty hopen.graces
    rw [closedNotes_of_no_graces hopen.graces, List.append_nil] at hturns
    have hnotes : t.time.notes = changeAt (Note.multiply multiplier) (group.map (·.place))
        (s.timeOf id).notes := by
      rw [time, VoiceTable.noteVoice_of_active hturns.active, hturns.voice, hplaces, h.time_eq]
    rw [hnotes]
    exact h.gathered.ends_iff (hfactor ▸ hopen.factor) h.beats hmultiplier
  | still hquiet hsame hline => cases hchord.symm.trans (hquiet.chordEnd hkind)
  | chordLost hkind hlost => cases hread.symm.trans hlost
  | graceNote grace w written hgroup | graceEnd grace hkind' hgroup =>
    cases h.order.graceGroup.symm.trans hgroup
  | tuplet u hkind' | tie hkind' | graceStart hkind' | rest length hkind' | multiRest bars hkind'
  | single w pitch i more notes hkind' | chordNote opened w pitch i notes hkind'
  | chordStart opened hkind' | brokenRhythm factor next hkind' => cases hkind.symm.trans hkind'

end Gathers

/-! ## Groups -/

/-- A note by itself, or a chord with what its length is multiplied by. -/
inductive IsGroup : List (MusicMove Rat) → Rat → Prop
  | note {token : Token} {context : MusicContext Rat} (hkind : token.kind = .note) :
      IsGroup [.token token context] 1
  | chord {first last : Token} {context context' : MusicContext Rat} {inner : List (MusicMove Rat)}
      {multiplier : Rat} (hfirst : first.kind = .chordStart) (hinner : ∀ m ∈ inner, m.Inside)
      (hlast : last.kind = .chordEnd) (hlength : readLength? (last.text.drop 1) = some multiplier) :
      IsGroup (.token first context :: inner ++ [.token last context']) multiplier

theorem advanceOf_of_whole (hbroken : s.time.brokenNext = none) (nominal : Rat) :
    s.advanceOf nominal = nominal * Tuplet.scaleAll s.tuplets := by
  rw [advanceOf, hbroken, Option.getD_none, mul_one]

/-- A note by itself ends as written, whether or not it is tied. -/
theorem InOrder.note_ends (h : s.InOrder) (hrange : s.InRange) (hchord : s.chord = none)
    (hbroken : s.time.brokenNext = none) (hwhole : s.staccato = false) (hkind : token.kind = .note)
    (hm : s.move (.token token context) = .ok t) :
    ∀ g ∈ s.groupNote? (.token token context),
      g.Ends s.time.clock (Tuplet.scaleAll s.tuplets) t.time.notes := by
  obtain ⟨⟨t,problem⟩,hok,rfl⟩ := exists_of_map_ok hm
  have hpassage := hrange.passage hok
  cases hpassage with
  | single w pitch i more notes hkind hgroup hnone hread hpitch hmore hplaced hturns hline =>
    obtain rfl := hmore.empty h.time.graces
    rw [List.append_nil] at hplaced
    rw [groupNote?_of_pitchOf hkind hread hpitch, ← hplaced.place_eq]
    rintro g ⟨⟩
    obtain ⟨n,hn,hstop⟩ := hplaced.stop
    have hnotes : t.time.notes = notes := by
      rw [MusicState.time, VoiceTable.noteVoice_of_active hturns.active, hturns.voice]
    rw [h.noteStart_eq hchord, noteBeats, hwhole, hchord, h.time.graces] at hstop
    dsimp only at hstop
    rw [borrowedBeats_nil, sub_zero, advanceOf_of_whole hbroken] at hstop
    rw [GroupNote.Ends, hnotes, hn, Option.map_some, hstop]
    rfl
  | still hquiet hsame hline =>
    rw [groupNote?_of_read_none (hquiet.note hkind)]
    exact forall_mem_none
  | chordNote opened w pitch i notes hkind hgroup hsome => cases hchord.symm.trans hsome
  | graceNote grace w written hgroup | graceEnd grace hkind' hgroup =>
    cases h.graceGroup.symm.trans hgroup
  | tuplet u hkind' | tie hkind' | graceStart hkind' | rest length hkind' | multiRest bars hkind'
  | chordStart opened hkind' | chordLost hkind' | chordEnd opened multiplier more hkind'
  | brokenRhythm factor next hkind' => cases hkind.symm.trans hkind'

theorem InOrder.group_ends_iff (h : s.InOrder) (hrange : s.InRange) {group : List (MusicMove Rat)}
    (hforward : ∀ m ∈ group, m.Forward) (horders : s.Along Orders group) (hchord : s.chord = none)
    (hbroken : s.time.brokenNext = none) {multiplier : Rat} (hgroup : IsGroup group multiplier)
    (hwhole : s.Along (fun s _ => s.staccato = false) group) (hrun : s.run group = .ok t) :
    (∀ g ∈ s.groupNotes group,
      g.Ends s.time.clock (Tuplet.scaleAll s.tuplets * multiplier) t.time.notes) ↔
    ∀ g ∈ s.groupNotes group, g.place < s.time.notes.length → multiplier = 1 ∧
      ∀ g' ∈ s.groupNotes group, g'.place = g.place → g'.beats = g.beats := by
  cases hgroup with
  | @note token context hkind =>
    obtain ⟨u,hm,hrun⟩ := exists_of_bind_ok hrun
    obtain rfl := Except.ok.inj hrun
    have hends := h.note_ends hrange hchord hbroken hwhole.1 hkind hm
    rw [groupNotes_singleton, mul_one]
    refine iff_of_true (fun g hg => hends g (Option.mem_toList.mp hg)) fun g hg _ =>
      ⟨rfl,fun g' hg' _ => ?_⟩
    rw [Option.mem_toList] at hg hg'
    rw [Option.some.inj (hg.symm.trans hg')]
  | @chord first last context context' inner multiplier hfirst hinner hend hlength =>
    obtain ⟨hfirstForward,hforward⟩ := List.forall_mem_cons.mp hforward
    obtain ⟨u,hopen,hrun⟩ := exists_of_bind_ok hrun
    obtain ⟨v,hinnerRun,hrun⟩ := exists_of_run_append hrun
    obtain ⟨w,hclose,hrun⟩ := exists_of_bind_ok hrun
    obtain rfl := Except.ok.inj hrun
    have halong : u.Along InsideChord inner := by
      have horders := (along_append.mp (horders.2 u hopen)).1
      have hwhole := (along_append.mp (hwhole.2 u hopen)).1
      have hstatic : u.Along (fun _ m => m.Forward ∧ m.Inside) inner :=
        along_of_forall fun m hm => ⟨hforward m (List.mem_append_left _ hm),hinner m hm⟩
      refine ((hstatic.and horders).and hwhole).imp (I := fun _ => True) trivial
        (fun _ _ _ _ _ _ => trivial) ?_
      rintro s m - ⟨⟨⟨hforward,hinside⟩,horders⟩,hwhole⟩
      exact ⟨hforward,horders,hinside,hwhole⟩
    have hgathers := (gathers_of_chordStart hrange h hchord hfirst hfirstForward hopen).run halong
      hinnerRun
    rw [groupNotes_chord hfirst hopen hinnerRun hend]
    rw [List.nil_append, advanceOf_of_whole hbroken, one_mul] at hgathers
    exact hgathers.ends_iff hend hlength hclose

/-- Behind every run that keeps music in order a note by itself or a chord ends as it is written to
just if the length of the chord does not multiply notes from before it that notes of it are tied to,
and if those that are tied to the same note take the same beats. So a note by itself always does. -/
theorem run_tiedEnds_iff {moves group : List (MusicMove Rat)} {multiplier : Rat}
    (hforward : ∀ m ∈ moves ++ group, m.Forward)
    (horders : initial.Along Orders (moves ++ group)) (hrun : initial.run moves = .ok s)
    (hchord : s.chord = none) (hbroken : s.time.brokenNext = none)
    (hgroup : IsGroup group multiplier) (hwhole : s.Along (fun s _ => s.staccato = false) group)
    (hend : s.run group = .ok t) :
    (∀ g ∈ s.groupNotes group,
      g.Ends s.time.clock (Tuplet.scaleAll s.tuplets * multiplier) t.time.notes) ↔
    ∀ g ∈ s.groupNotes group, g.place < s.time.notes.length → multiplier = 1 ∧
      ∀ g' ∈ s.groupNotes group, g'.place = g.place → g'.beats = g.beats := by
  obtain ⟨hbefore,hgroupForward⟩ := List.forall_mem_append.mp hforward
  obtain ⟨horders,hgroupOrders⟩ := along_append.mp horders
  have hrange : s.InRange := inRange_initial.run hrun
  have horder : s.InOrder := inOrder_initial.run inRange_initial hbefore horders hrun
  exact horder.group_ends_iff hrange hgroupForward (hgroupOrders s hrun) hchord hbroken hgroup
    hwhole hend

/-- In a triplet, a note that is tied to a chord, which is tied to another chord of three notes. -/
theorem run_tiedEnds_chain :
    ∃ (moves group : List (MusicMove Rat)) (s t : MusicState Rat),
      (∀ m ∈ moves ++ group, m.Forward) ∧ initial.Along Orders (moves ++ group) ∧
      initial.run moves = .ok s ∧ s.chord = none ∧ s.time.brokenNext = none ∧
      IsGroup group 1 ∧ s.Along (fun s _ => s.staccato = false) group ∧ s.run group = .ok t ∧
      s.time.clock = 2/3 ∧ (Tuplet.scaleAll s.tuplets : Rat) = 2/3 ∧ s.time.notes.length = 2 ∧
      s.groupNotes group = [⟨1,1/2⟩,⟨0,1/2⟩,⟨2,1⟩] ∧
      ∀ g ∈ s.groupNotes group,
        g.Ends s.time.clock (Tuplet.scaleAll s.tuplets * 1) t.time.notes := by
  let music (kind : TokenKind) (text : String) : MusicMove Rat :=
    .token ⟨kind,text.toList,1,1,[]⟩ .initial
  let moves : List (MusicMove Rat) := [music .tuplet "(3",music .note "C",music .tie "-",
    music .chordStart "[",music .note "C",music .note "E",music .chordEnd "]",music .tie "-"]
  let inner : List (MusicMove Rat) := [music .note "E",music .note "C",music .note "G2"]
  let group : List (MusicMove Rat) :=
    music .chordStart "[" :: inner ++ [music .chordEnd "]"]
  have hunit : 0 < (MusicContext.initial : MusicContext Rat).unitLength := by decide +kernel
  have hforward : ∀ m ∈ moves ++ group, m.Forward := by
    simp [moves, group, inner, music, MusicMove.Forward, hunit]
  have horders : initial.Along Orders (moves ++ group) := by
    simp [moves, group, inner, music, Along, Orders]
  have hinner : ∀ m ∈ inner, m.Inside := by simp [inner, music, MusicMove.Inside]
  have hgroup : IsGroup group 1 := .chord rfl hinner rfl (by decide +kernel)
  have hrun : ((initial.run moves).toOption.map fun s =>
      (decide (s.chord = none ∧ s.time.brokenNext = none ∧
          s.Along (fun s _ => s.staccato = false) group ∧ s.time.clock = 2/3 ∧
          (Tuplet.scaleAll s.tuplets : Rat) = 2/3 ∧ s.time.notes.length = 2 ∧
          s.groupNotes group = [⟨1,1/2⟩,⟨0,1/2⟩,⟨2,1⟩]),
        (s.run group).toOption.map fun t => t.time.notes.length)) = some (true,some 3) := by
    decide +kernel
  obtain ⟨s,hs,hvalue⟩ := exists_of_toOption_map hrun
  obtain ⟨hstate,hvalue⟩ := Prod.mk.inj hvalue
  obtain ⟨hchord,hbroken,hwhole,hclock,hscale,hlength,hnotes⟩ := of_decide_eq_true hstate
  obtain ⟨t,ht,-⟩ := exists_of_toOption_map hvalue
  have hsame : ∀ g ∈ s.groupNotes group, ∀ g' ∈ s.groupNotes group,
      g'.place = g.place → g'.beats = g.beats := by
    rw [hnotes]
    decide +kernel
  have hends := run_tiedEnds_iff hforward horders hs hchord hbroken hgroup hwhole ht
  refine ⟨moves,group,s,t,hforward,horders,hs,hchord,hbroken,hgroup,hwhole,ht,hclock,hscale,hlength,
    hnotes,hends.mpr fun g hg _ => ⟨rfl,hsame g hg⟩⟩

/-- A note that is tied to a chord with a length of two: the chord doubles all of it. -/
theorem run_tiedEnds_doubled :
    ∃ (moves group : List (MusicMove Rat)) (s t : MusicState Rat),
      (∀ m ∈ moves ++ group, m.Forward) ∧ initial.Along Orders (moves ++ group) ∧
      initial.run moves = .ok s ∧ s.chord = none ∧ s.time.brokenNext = none ∧
      IsGroup group 2 ∧ s.Along (fun s _ => s.staccato = false) group ∧ s.run group = .ok t ∧
      s.time.clock = 1/2 ∧ (Tuplet.scaleAll s.tuplets : Rat) = 1 ∧
      s.groupNotes group = [⟨0,1/2⟩,⟨1,1/2⟩] ∧ t.time.notes.map (·.stop) = [2,3/2] ∧
      ¬ ∀ g ∈ s.groupNotes group,
        g.Ends s.time.clock (Tuplet.scaleAll s.tuplets * 2) t.time.notes := by
  let music (kind : TokenKind) (text : String) : MusicMove Rat :=
    .token ⟨kind,text.toList,1,1,[]⟩ .initial
  let moves : List (MusicMove Rat) := [music .note "C",music .tie "-"]
  let inner : List (MusicMove Rat) := [music .note "C",music .note "E"]
  let group : List (MusicMove Rat) :=
    music .chordStart "[" :: inner ++ [music .chordEnd "]2"]
  have hunit : 0 < (MusicContext.initial : MusicContext Rat).unitLength := by decide +kernel
  have hforward : ∀ m ∈ moves ++ group, m.Forward := by
    simp [moves, group, inner, music, MusicMove.Forward, hunit]
  have horders : initial.Along Orders (moves ++ group) := by
    simp [moves, group, inner, music, Along, Orders]
  have hinner : ∀ m ∈ inner, m.Inside := by simp [inner, music, MusicMove.Inside]
  have hgroup : IsGroup group 2 := .chord rfl hinner rfl (by decide +kernel)
  have hrun : ((initial.run moves).toOption.map fun s =>
      (decide (s.chord = none ∧ s.time.brokenNext = none ∧
          s.Along (fun s _ => s.staccato = false) group ∧ s.time.clock = 1/2 ∧
          (Tuplet.scaleAll s.tuplets : Rat) = 1 ∧ s.groupNotes group = [⟨0,1/2⟩,⟨1,1/2⟩]),
        (s.run group).toOption.map fun t => t.time.notes.map (·.stop))) =
      some (true,some [2,3/2]) := by decide +kernel
  obtain ⟨s,hs,hvalue⟩ := exists_of_toOption_map hrun
  obtain ⟨hstate,hvalue⟩ := Prod.mk.inj hvalue
  obtain ⟨hchord,hbroken,hwhole,hclock,hscale,hnotes⟩ := of_decide_eq_true hstate
  obtain ⟨t,ht,hstops⟩ := exists_of_toOption_map hvalue
  refine ⟨moves,group,s,t,hforward,horders,hs,hchord,hbroken,hgroup,hwhole,ht,hclock,hscale,hnotes,
    hstops,fun hends => ?_⟩
  have hfirst := hends ⟨0,1/2⟩ (hnotes ▸ List.mem_cons_self)
  rw [GroupNote.Ends, ← List.getElem?_map, hstops, hclock, hscale] at hfirst
  exact absurd hfirst (by decide +kernel)

end MusicState
end AbcTune
