import AbcTune.Proofs.Music.Lengths
import AbcTune.Proofs.Music.OneVoice

/-! # Notes within bounds

Positions grow by no more than a stride with each token. A note that was just placed is no longer
than the music so far; when its chord is closed it is multiplied once for each time that it is in
the chord, and a mark of broken rhythm stretches it. All of that stays far below the largest double
as long as chords have few notes.
-/
namespace AbcTune

open Number

/-- The most tokens that music is measured for. -/
def mostTokens : Nat := 2 ^ 22

/-- The most notes that a chord may have. -/
def mostNotes : Nat := 16

/-- A clock of a voice after `n` tokens. -/
abbrev Clock (n : Nat) (x : Float) : Prop := Within n 365 x

/-- The start of a note after `n` tokens. Grace notes may have moved it, and they may do so once
more for each time that it is in a chord. -/
abbrev Start (n : Nat) (x : Float) : Prop := Within n 394 x

/-- The duration of a note that was just placed, or tied to the one that was. -/
abbrev Fresh (n : Nat) (x : Float) : Prop := Within (n + 1) 394 x

/-- The duration of a note whose chord was closed. -/
abbrev Closed (n : Nat) (x : Float) : Prop := Within (n + 17) 874 x

/-- The duration of a note, whatever has become of it. -/
abbrev Held (n : Nat) (x : Float) : Prop := Within (n + 100) 890 x

variable {n : Nat} {x : Float}

theorem Number.Within.more {m j k : Nat} (h : Within m k x) (hm : m ≤ n) (hk : k ≤ j) :
    Within n j x :=
  h.mono (Nat.mul_le_mul hm (Nat.pow_le_pow_right (by decide) hk))

theorem Number.within_shift {m j k : Nat} : Within (m * 2 ^ j) k x ↔ Within m (k + j) x := by
  have heq : m * 2 ^ j * 2 ^ k = m * 2 ^ (k + j) := by
    rw [Nat.mul_assoc, ← Nat.pow_add, Nat.add_comm j]
  exact ⟨fun h => h.mono heq.le,fun h => h.mono heq.ge⟩

theorem Number.Within.fold {m j k : Nat} (h : Within m k x) (hm : m ≤ 2 ^ j) :
    Within 1 (k + j) x :=
  within_shift.mp (h.more (by rwa [Nat.one_mul]) le_rfl)

theorem Clock.advance (h : Clock n x) (hn : n < mostTokens) {beats : Float}
    (hbeats : Within 1 365 beats) : Clock (n + 1) (x + beats) := by
  have hmost : mostTokens = 2 ^ 22 := rfl
  exact Within.add h hbeats (by omega) (by decide)

theorem Fresh.closed (h : Fresh n x) : Closed n x := h.more (by omega) (by decide)

theorem Closed.held (h : Closed n x) : Held n x := h.more (by omega) (by decide)

/-! ## Changing notes of a voice -/

namespace Voice

variable {v w : Voice Float} {P Q : Note Float → Prop} {places : List Nat}

/-- Something holds of the notes at the given places. -/
def Holds (v : Voice Float) (places : List Nat) (P : Note Float → Prop) : Prop :=
  ∀ i ∈ places, ∀ note ∈ v.notes[i]?, P note

/-- Notes of a voice were changed or added, and something holds of all of those. -/
structure Changed (P : Note Float → Prop) (v w : Voice Float) : Prop where
  settings : w = { v with notes := w.notes }
  notes : ∀ i : Nat, ∀ note ∈ w.notes[i]?, v.notes[i]? = some note ∨ P note

theorem Changed.refl (v : Voice Float) : Changed P v v := ⟨rfl,fun _ _ hnote => .inl hnote⟩

theorem Changed.trans {u : Voice Float} (h : Changed P u v) (h' : Changed P v w) :
    Changed P u w := by
  refine ⟨?_,fun i note hnote => ?_⟩
  · rw [h'.settings, h.settings]
  · rcases h'.notes i note hnote with hold | hnew
    · exact h.notes i note hold
    · exact .inr hnew

theorem Changed.imp (h : Changed P v w) (himp : ∀ note, P note → Q note) : Changed Q v w :=
  ⟨h.settings,fun i note hnote => (h.notes i note hnote).imp_right (himp note)⟩

theorem Changed.forall (h : Changed P v w) (himp : ∀ note, P note → Q note)
    (hv : ∀ note ∈ v.notes, Q note) : ∀ note ∈ w.notes, Q note := by
  intro note hnote
  obtain ⟨i,hi⟩ := List.getElem?_of_mem hnote
  rcases h.notes i note hi with hold | hnew
  · exact hv note (List.mem_of_getElem? hold)
  · exact himp note hnew

theorem Changed.holds (h : Changed P v w) (himp : ∀ note, P note → Q note)
    (hv : v.Holds places Q) : w.Holds places Q := by
  intro i hi note hnote
  rcases h.notes i note hnote with hold | hnew
  · exact hv i hi note hold
  · exact himp note hnew

theorem Holds.imp (h : v.Holds places P) (himp : ∀ note, P note → Q note) : v.Holds places Q :=
  fun i hi note hnote => himp note (h i hi note hnote)

/-- Adds notes behind those of a voice. -/
def append (v : Voice Float) (more : List (Note Float)) : Voice Float :=
  { v with notes := v.notes ++ more }

theorem changed_append {more : List (Note Float)} (h : ∀ note ∈ more, P note) :
    Changed P v (v.append more) := by
  refine ⟨rfl,fun i note hnote => ?_⟩
  change (v.notes ++ more)[i]? = some note at hnote
  rcases Nat.lt_or_ge i v.notes.length with hi | hi
  · rw [List.getElem?_append_left hi] at hnote
    exact .inl hnote
  · rw [List.getElem?_append_right hi] at hnote
    exact .inr (h note (List.mem_of_getElem? hnote))

variable {f : Note Float → Note Float}

theorem changed_modifyNote {i : Nat} (h : v.modifyNote f i = .ok w)
    (hf : ∀ note ∈ v.notes, P (f note)) : Changed P v w ∧ w.Holds [i] P := by
  obtain ⟨note,hnote,rfl⟩ := modifyNote_ok h
  have hi := (List.getElem?_eq_some_iff.mp hnote).1
  have hnew : P (f note) := hf note (List.mem_of_getElem? hnote)
  refine ⟨⟨rfl,fun j other hother => ?_⟩,fun j hj other hother => ?_⟩
  · change (v.notes.set i (f note))[j]? = some other at hother
    by_cases hij : i = j
    · subst hij
      rw [List.getElem?_set_self hi] at hother
      exact .inr (Option.some.inj hother ▸ hnew)
    · rw [List.getElem?_set_ne hij] at hother
      exact .inl hother
  · rw [List.mem_singleton.mp hj] at hother
    change (v.notes.set i (f note))[i]? = some other at hother
    rw [List.getElem?_set_self hi] at hother
    exact Option.some.inj hother ▸ hnew

/-- What a change makes of a note depends on how often it is made. -/
theorem changed_modifyNotes {P : Nat → Note Float → Prop} (h : v.modifyNotes f places = .ok w)
    (hplaces : places.length ≤ mostNotes) (hfirst : v.Holds places (P 0))
    (hstep : ∀ c note, c < mostNotes → P c note → P (c + 1) (f note))
    (hlast : ∀ c note, c ≤ mostNotes → P c note → Q note) : Changed Q v w := by
  obtain ⟨notes,rfl,hnotes⟩ := modifyNotes_ok h
  refine ⟨rfl,fun j note hnote => ?_⟩
  change notes[j]? = some note at hnote
  rw [hnotes, Option.map_eq_some_iff] at hnote
  obtain ⟨before,hbefore,rfl⟩ := hnote
  by_cases hj : j ∈ places
  · have hcount : places.count j ≤ mostNotes := List.count_le_length.trans hplaces
    have hiterate (c : Nat) (hc : c ≤ mostNotes) : P c (f^[c] before) := by
      induction c with
      | zero => exact hfirst j hj before hbefore
      | succ c ih =>
        rw [Function.iterate_succ_apply']
        exact hstep c _ hc (ih (Nat.le_of_succ_le hc))
    exact .inr (hlast _ _ hcount (hiterate _ hcount))
  · rw [List.count_eq_zero_of_not_mem hj]
    exact .inl hbefore

end Voice

/-! ## Placing notes -/

/-- Memories that differ in accidentals, dynamics and ties alone. -/
structure VoiceMemory.Agrees (m m' : VoiceMemory Float) : Prop where
  graces : m'.graces = m.graces
  lastGroup : m'.lastGroup = m.lastGroup
  lastAdvance : m'.lastAdvance = m.lastAdvance
  brokenNext : m'.brokenNext = m.brokenNext

section Placing

variable {v w : Voice Float} {part : Option Char}

/-- A note that was placed by the token behind the first `n`. -/
def Note.Placed (n : Nat) (note : Note Float) : Prop :=
  Start (n + 1) note.start ∧ Fresh (n + 1) note.duration

theorem place_bounds {m m' : VoiceMemory Float} {p : Placement Float} {i : Nat}
    (hn : n < mostTokens) (hv : ∀ note ∈ v.notes, Start n note.start)
    (hstart : Within 1 390 p.start) (hadvance : Within 1 390 p.advance)
    (h : place v m p part = .ok (w,m',i)) :
    Voice.Changed (Note.Placed n) v w ∧ w.Holds [i] (Note.Placed n) ∧ m.Agrees m' := by
  have hmost : mostTokens = 2 ^ 22 := rfl
  unfold place at h
  dsimp only at h
  have hduration (staccato : Bool) :
      Within 1 390 (if staccato = true then p.advance / 2.0 else p.advance) := by
    split
    · exact hadvance.half (by decide) (by decide) (by decide)
    · exact hadvance
  generalize (Shading.ofDecorations m.velocity (p.decorations ++ m.spans)).staccato = staccato at h
  specialize hduration staccato
  generalize (if staccato = true then p.advance / 2.0 else p.advance) = duration at h hduration
  obtain ⟨tied,htied,h⟩ := exists_of_bind_ok h
  cases tied with
  | some j =>
    obtain ⟨u,hu,h⟩ := exists_of_bind_ok h
    cases h
    have hstop : Within 2 394 (p.start + duration) :=
      (hstart.add hduration (by decide) (by decide)).more le_rfl (by decide)
    have hchanged := Voice.changed_modifyNote (P := Note.Placed n) hu fun note hnote =>
      ⟨(hv note hnote).more (Nat.le_succ n) le_rfl,
        (hstop.sub (hv note hnote) (by omega) (by decide)).more (by omega) le_rfl⟩
    exact ⟨hchanged.1,hchanged.2,rfl,rfl,rfl,rfl⟩
  | none =>
    cases h
    have hnew {note : Note Float} (hnote : note.start = p.start ∧ note.duration = duration) :
        Note.Placed n note :=
      ⟨hnote.1 ▸ hstart.more (by omega) (by decide),hnote.2 ▸ hduration.more (by omega) (by decide)⟩
    refine ⟨Voice.changed_append (List.forall_mem_singleton.mpr (hnew ⟨rfl,rfl⟩)),?_,
      rfl,rfl,rfl,rfl⟩
    intro j hj note hnote
    rw [List.mem_singleton.mp hj] at hnote
    change (v.notes ++ [_])[v.notes.length]? = some note at hnote
    rw [List.getElem?_concat_length] at hnote
    exact Option.some.inj hnote ▸ hnew ⟨rfl,rfl⟩

/-- A grace note that was placed among others, after so many strides at most. -/
def Note.Ornament (most : Nat) (note : Note Float) : Prop :=
  Clock most note.start ∧ Span 132 note.duration

theorem Note.Ornament.start {note : Note Float} (h : note.Ornament (n + n)) :
    Start n note.start :=
  (within_shift.mp (h.1.more (n := n * 2 ^ 1) (by omega) le_rfl)).more le_rfl (by decide)

theorem addGraces_bounds (v : Voice Float) (velocity : Int) (part : Option Char) {factor : Float}
    {graces : List (Grace Float)} (hfactor : Span 0 factor)
    (hgraces : ∀ g ∈ graces, Span 132 g.beats) {time : Float} {n most : Nat}
    (htime : Clock n time) (hmost : n + graces.length ≤ most) (hsmall : most < 2 ^ 53) :
    v.Changed (Note.Ornament most) (addGraces v velocity factor part graces time).1 ∧
      Clock most (addGraces v velocity factor part graces time).2 := by
  induction graces generalizing v time n with
  | nil => exact ⟨.refl v,htime.more hmost le_rfl⟩
  | cons g rest ih =>
    obtain ⟨hg,hrest⟩ := List.forall_mem_cons.mp hgraces
    rw [List.length_cons] at hmost
    have hduration : Span 132 (g.beats * factor) := hg.mul hfactor (by decide)
    have hnext : Clock (n + 1) (time + g.beats * factor) :=
      htime.add (hduration.within.more le_rfl (by decide)) (by omega) (by decide)
    obtain ⟨hchanged,hstop⟩ := ih (v.addNote _) hrest hnext (by omega)
    refine ⟨Voice.Changed.trans (Voice.changed_append ?_) hchanged,hstop⟩
    exact List.forall_mem_singleton.mpr ⟨htime.more (by omega) le_rfl,hduration⟩

theorem placeGraces_bounds (v : Voice Float) (velocity : Int) (part : Option Char)
    {graces : List (Grace Float)} {start principal : Float} (hgraces : ∀ g ∈ graces, Span 132 g.beats)
    (hcount : graces.length ≤ n) (hn : n < mostTokens) (hstart : Clock n start)
    (hprincipal : Span 363 principal) :
    v.Changed (Note.Ornament (n + n)) (placeGraces v velocity graces start principal part).1 ∧
      Within 1 389 (placeGraces v velocity graces start principal part).2 := by
  have hmost : mostTokens = 2 ^ 22 := rfl
  have hbeats : ∀ x ∈ graces.map (·.beats), Span 132 x := List.forall_mem_map.mpr hgraces
  obtain ⟨hnonneg,htotal⟩ := bounds_sum hbeats (by rw [List.length_map]; omega) (by decide)
  unfold placeGraces
  dsimp only
  generalize Beats.sum (graces.map (·.beats)) = total at hnonneg htotal
  split
  · exact ⟨.refl v,within_zero .positive⟩
  · have hlimit : Span 363 (principal * mostGraceShare) := hprincipal.mul span_half (by decide)
    have hfactor : Span 0 (if principal * mostGraceShare < total then
        principal * mostGraceShare / total else 1.0) := by
      split
      · next hlt =>
        obtain ⟨hle,hpos⟩ := size_le_of_lt hlimit.nonneg hnonneg htotal.finite hlt
        exact span_div hlimit.nonneg hnonneg hlimit.within.finite htotal.finite hpos
          (by rwa [pow_zero, one_mul]) (by decide)
      · exact span_one
    obtain ⟨hchanged,hstop⟩ := addGraces_bounds v velocity part hfactor hgraces hstart
      (Nat.add_le_add_left hcount n) (by omega)
    exact ⟨hchanged,(hstop.sub hstart (by omega) (by decide)).fold (j := 24) (by omega)⟩

/-! ## Chords and broken rhythm -/

/-- A note of a chord that was closed by the token behind the first `n`. -/
def Note.Settled (n : Nat) (note : Note Float) : Prop :=
  Start (n + 1) note.start ∧ Closed (n + 1) note.duration

theorem within_remaining {m k : Nat} {length taken : Float} (h : Within m k (length - taken)) :
    Within m k (MusicState.remaining length taken) :=
  within_later h (within_zero .positive)

/-- A note of a chord whose length was multiplied, before grace notes move it. -/
def Note.Multiplied (n : Nat) (note : Note Float) : Prop :=
  Start n note.start ∧ Within (n + 1) 874 note.duration

theorem Note.Multiplied.settled {note : Note Float} (h : note.Multiplied n) : note.Settled n :=
  ⟨h.1.more (Nat.le_succ n) le_rfl,h.2.more (by omega) le_rfl⟩

theorem Note.Ornament.multiplied {note : Note Float} (h : note.Ornament (n + n)) :
    note.Multiplied n :=
  ⟨h.start,h.2.within.more (by omega) (by decide)⟩

theorem changed_multiply {multiplier : Float} {places : List Nat} (hn : n < mostTokens)
    (hv : ∀ note ∈ v.notes, Start n note.start)
    (hplaces : v.Holds places fun note => Fresh n note.duration)
    (hcount : places.length ≤ mostNotes) (hmultiplier : Span 30 multiplier)
    (h : v.modifyNotes (fun note => { note with duration := note.duration * multiplier }) places =
      .ok w) :
    v.Changed (Note.Multiplied n) w := by
  have hmost : mostTokens = 2 ^ 22 := rfl
  have hmostNotes : mostNotes = 16 := rfl
  refine Voice.changed_modifyNotes
    (P := fun c note => Start n note.start ∧ Within (n + 1) (394 + 30 * c) note.duration)
    h hcount ?_ ?_ ?_
  · intro i hi note hnote
    exact ⟨hv note (List.mem_of_getElem? hnote),hplaces i hi note hnote⟩
  · rintro c note hc ⟨hnote,hduration⟩
    refine ⟨hnote,?_⟩
    exact (hduration.mul hmultiplier.within (by omega) (by omega) (by omega)).more (by omega)
      (by omega)
  · rintro c note hc ⟨hnote,hduration⟩
    exact ⟨hnote,hduration.more le_rfl (by omega)⟩

theorem changed_moveBehind {borrowed : Float} {places : List Nat} (hn : n < mostTokens)
    (hplaces : v.Holds places (Note.Multiplied n)) (hcount : places.length ≤ mostNotes)
    (hborrowed : Within 1 389 borrowed)
    (h : v.modifyNotes (fun note => { note with
      start := note.start + borrowed
      duration := MusicState.remaining note.duration borrowed }) places = .ok w) :
    v.Changed (Note.Settled n) w := by
  have hmost : mostTokens = 2 ^ 22 := rfl
  have hmostNotes : mostNotes = 16 := rfl
  refine Voice.changed_modifyNotes
    (P := fun c note => Within (n * 2 ^ 5 + c) 389 note.start ∧
      Within (n + 1 + c) 874 note.duration) h hcount ?_ ?_ ?_
  · intro i hi note hnote
    obtain ⟨hstart,hduration⟩ := hplaces i hi note hnote
    exact ⟨within_shift.mpr hstart,hduration⟩
  · rintro c note hc ⟨hnote,hduration⟩
    exact ⟨hnote.add hborrowed (by omega) (by decide),within_remaining
      (hduration.sub (hborrowed.more le_rfl (by decide)) (by omega) (by decide))⟩
  · rintro c note hc ⟨hnote,hduration⟩
    have hstart : Within ((n + 1) * 2 ^ 5) 389 note.start := hnote.more (by omega) le_rfl
    exact ⟨within_shift.mp hstart,hduration.more (by omega) le_rfl⟩

theorem finishChord_bounds {velocity : Int} {chord : OpenChord Float} {multiplier advance : Float}
    (hn : n < mostTokens) (hv : ∀ note ∈ v.notes, Start n note.start)
    (hnotes : v.Holds chord.notes fun note => Fresh n note.duration)
    (hcount : chord.notes.length ≤ mostNotes) (hmultiplier : Span 30 multiplier)
    (hgraces : ∀ g ∈ chord.graces, Span 132 g.beats) (hlength : chord.graces.length ≤ n)
    (hstart : Clock n chord.start) (hadvance : Span 363 advance)
    (h : MusicState.finishChord v velocity chord multiplier advance part = .ok w) :
    v.Changed (Note.Settled n) w := by
  unfold MusicState.finishChord at h
  obtain ⟨u,hu,h⟩ := exists_of_bind_ok h
  have hmultiplied := changed_multiply hn hv hnotes hcount hmultiplier hu
  have hsettled := hmultiplied.imp fun _ hnote => hnote.settled
  split at h
  · cases h
    exact hsettled
  · obtain ⟨hgraced,hborrowed⟩ := placeGraces_bounds u velocity part
      hgraces hlength hn hstart hadvance
    have hgraced := hgraced.imp fun _ hnote => hnote.multiplied
    have hchord : v.Holds chord.notes (Note.Multiplied n) := fun i hi note hnote =>
      ⟨hv note (List.mem_of_getElem? hnote),(hnotes i hi note hnote).more le_rfl (by decide)⟩
    have hplaces := hgraced.holds (fun _ hnote => hnote)
      (hmultiplied.holds (fun _ hnote => hnote) hchord)
    have hmoved := changed_moveBehind hn hplaces hcount hborrowed h
    exact (hsettled.trans (hgraced.imp fun _ hnote => hnote.settled)).trans hmoved

/-- What a mark of broken rhythm makes of a note before it, where the group of the note starts at
the origin. -/
def stretched (origin before : Float) (note : Note Float) : Note Float :=
  let stop := origin + (note.stop - origin) * before
  { note with duration := MusicState.remaining stop note.start }

theorem stretch_bounds {places : List Nat} {origin before : Float}
    (hn : n < mostTokens) (hv : ∀ note ∈ v.notes, Start n note.start)
    (hplaces : v.Holds places fun note => Closed n note.duration)
    (hcount : places.length ≤ mostNotes) (horigin : Within (n + 1) 365 origin)
    (hbefore : Span 1 before) (h : v.modifyNotes (stretched origin before) places = .ok w) :
    v.Changed (fun note => Start n note.start ∧ Held n note.duration) w := by
  have hmost : mostTokens = 2 ^ 22 := rfl
  have hmostNotes : mostNotes = 16 := rfl
  refine Voice.changed_modifyNotes
    (P := fun c note => Start n note.start ∧ Within (n + 17 + 4 * c) (874 + c) note.duration)
    h hcount ?_ ?_ ?_
  · intro i hi note hnote
    exact ⟨hv note (List.mem_of_getElem? hnote),hplaces i hi note hnote⟩
  · rintro c note hc ⟨hnote,hduration⟩
    refine ⟨hnote,within_remaining ?_⟩
    have hwide {m k : Nat} {x : Float} (hx : Within m k x) (hm : m ≤ 2 ^ 23) (hk : k + 23 ≤ 874) :
        ∀ j, 874 ≤ j → Within 1 j x := fun j hj => (hx.fold hm).more le_rfl (by omega)
    have hstart := hwide hnote (by omega) (by decide)
    have horigin := hwide horigin (by omega) (by decide)
    have hstop := (hstart (874 + c) (by omega)).add hduration (by omega) (by omega)
    have hlong := (hstop.sub (horigin (874 + c) (by omega)) (by omega) (by omega)).mul
      hbefore.within (by omega) (by omega) (by omega)
    have hnew := (horigin (874 + c + 1) (by omega)).add hlong (by omega) (by omega)
    exact (hnew.sub (hstart (874 + c + 1) (by omega)) (by omega) (by omega)).more (by omega)
      (by omega)
  · rintro c note hc ⟨hnote,hduration⟩
    exact ⟨hnote,hduration.more (by omega) (by omega)⟩

end Placing
end AbcTune
