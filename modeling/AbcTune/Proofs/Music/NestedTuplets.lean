import AbcTune.Proofs.Music.NoteWriting

/-! # Nested tuplets

Music under tuplets is a tree: a group holds as many items as its tuplet counts, and an item is a
note, a rest, a chord or again a group. Reading keeps no tree but a stack of the open tuplets with
the notes that are still to come. All along the music the stack is the groups around the token that
is read, and a group that ends counts as one item of the group around it.
-/
namespace AbcTune

/-! ## Stacks of groups -/

namespace Tuplet

/-- What the factor of a group comes from. -/
def ratio (t : Tuplet) : Nat × Nat := (t.notes,t.inTimeOf)

/-- The open groups are those around a place, which lie from the outermost in, and the innermost of
them still waits for `count` items. -/
structure Around (groups open_ : List Tuplet) (count : Nat) : Prop where
  ratios : 0 < count → open_.map ratio = (groups.map ratio).reverse
  remaining : ∀ t ∈ open_.head?, count ≤ t.remaining

variable {t : Tuplet} {groups open_ : List Tuplet} {n : Nat}

/-- A group that opens is the innermost one. -/
theorem Around.open (h : Around groups open_ (n + 1)) (t : Tuplet) :
    Around (groups ++ [t]) (t :: open_) t.remaining where
  ratios _ := by simp [h.ratios n.succ_pos]
  remaining := by
    rintro _ ⟨⟩
    exact le_rfl

/-- An item that is counted is no longer waited for. -/
theorem Around.count (h : Around groups open_ (n + 1)) : Around groups (countNote open_) n := by
  cases open_ with
  | nil => exact ⟨fun _ => h.ratios n.succ_pos,nofun⟩
  | cons t outer =>
    have hremaining : n + 1 ≤ t.remaining := h.remaining t rfl
    rw [countNote]
    by_cases hlast : t.remaining ≤ 1
    · obtain rfl : n = 0 := by omega
      exact ⟨fun h => absurd h (Nat.lt_irrefl 0),fun _ _ => Nat.zero_le _⟩
    · rw [if_neg hlast]
      refine ⟨fun _ => h.ratios n.succ_pos,?_⟩
      rintro _ ⟨⟩
      exact Nat.le_sub_one_of_lt hremaining

variable {β : Type} [Beats β]

/-- The factors of groups, multiplied from the first one. -/
def productOf (groups : List Tuplet) : β := groups.foldl (fun product t => product * t.scale) 1.0

theorem scaleAll_eq_productOf (h : open_.map ratio = (groups.map ratio).reverse) :
    (scaleAll open_ : β) = productOf groups := by
  let factor (r : Nat × Nat) : β := Beats.ofNat r.2 / Beats.ofNat r.1
  have hopen : (scaleAll open_ : β) =
      (open_.map ratio).foldr (fun r product => product * factor r) 1.0 := by
    rw [List.foldr_map]
    rfl
  have hgroups : (productOf groups : β) =
      (groups.map ratio).foldl (fun product r => product * factor r) 1.0 := by
    rw [List.foldl_map]
    rfl
  rw [hopen, h, List.foldr_reverse, hgroups]

end Tuplet

/-! ## Music as a tree -/

/-- A token with the settings that it is read under. -/
structure Sign (β : Type) where
  token : Token
  context : MusicContext β

section Signs

variable {β : Type} [Beats β]

namespace Sign

/-- A note that can be read. -/
def IsNote (x : Sign β) : Prop :=
  x.token.kind = .note ∧ (WrittenNote.read? (β := β) x.token.text).isSome

/-- A rest that can be read. -/
def IsRest (x : Sign β) : Prop :=
  x.token.kind = .rest ∧ (readLength? (β := β) (x.token.text.drop 1)).isSome

/-- The end of a chord whose length can be read. -/
def IsChordEnd (x : Sign β) : Prop :=
  x.token.kind = .chordEnd ∧ (readLength? (β := β) (x.token.text.drop 1)).isSome

/-- A tuplet that is read and that counts at least one item. -/
def Opens (x : Sign β) (tuplet : Tuplet) : Prop :=
  x.token.kind = .tuplet ∧ Tuplet.read? x.token.text x.context.meter = some tuplet ∧
    1 ≤ tuplet.remaining

end Sign

/-- Music of a number of items: notes, rests, chords, and groups of as many items as their tuplet
counts. -/
inductive Phrase (β : Type) [Beats β] : Nat → Type
  | done : Phrase β 0
  | note (x : Sign β) (hx : x.IsNote) {n : Nat} (more : Phrase β n) : Phrase β (n + 1)
  | rest (x : Sign β) (hx : x.IsRest) {n : Nat} (more : Phrase β n) : Phrase β (n + 1)
  | chord (first : Sign β) (notes : List (Sign β)) (last : Sign β)
      (hfirst : first.token.kind = .chordStart) (hnotes : ∀ x ∈ notes, x.IsNote)
      (hlast : last.IsChordEnd) {n : Nat} (more : Phrase β n) : Phrase β (n + 1)
  | group (x : Sign β) (tuplet : Tuplet) (hx : x.Opens tuplet)
      (inside : Phrase β tuplet.remaining) {n : Nat} (more : Phrase β n) : Phrase β (n + 1)

/-- The tokens of music in their order, each with the groups that contain it, from the outermost. -/
def Phrase.signs (groups : List Tuplet) {n : Nat} : Phrase β n → List (Sign β × List Tuplet)
  | done => []
  | note x _ more => (x,groups) :: more.signs groups
  | rest x _ more => (x,groups) :: more.signs groups
  | chord first notes last _ _ _ more =>
    ((first,groups) :: (notes.map (·,groups) ++ [(last,groups)])) ++ more.signs groups
  | group x tuplet _ inside more =>
    (x,groups) :: (inside.signs (groups ++ [tuplet]) ++ more.signs groups)

end Signs

namespace MusicState

variable {β : Type} [Beats β] {s t u : MusicState β} {x : Sign β} {groups : List Tuplet}

/-- A token has been read between two states under a factor: a note or a rest takes its length times
the factor, and a chord gets the factor when it opens and keeps it for its notes. Where broken
rhythm is due, it is part of the length. -/
def Scales (s t : MusicState β) (x : Sign β) (factor : β) : Prop :=
  let id := s.voices.noteVoice
  let broken := (s.memory id).brokenNext.getD 1.0
  match x.token.kind with
  | .note =>
    ∀ w : WrittenNote β, WrittenNote.read? x.token.text = some w →
      match s.chord with
      | none => (t.memory id).lastAdvance = x.context.beats w.length * broken * factor
      | some chord => t.chord.map (·.factor) = some chord.factor ∧
          t.chord.map (·.firstAdvance) =
            some (chord.firstAdvance <|> some (x.context.beats w.length * chord.factor))
  | .rest =>
    ∀ length : β, readLength? (x.token.text.drop 1) = some length →
      (t.memory id).lastAdvance = x.context.beats length * broken * factor
  | .chordStart => t.chord.map (·.factor) = some (broken * factor)
  | _ => True

/-- Tokens are read from one state to another. Each is accepted where just its groups are open, and
under the product of their factors, from the outermost. -/
inductive Plays : MusicState β → List (Sign β × List Tuplet) → MusicState β → Prop
  | done (s : MusicState β) : Plays s [] s
  | next {s t u : MusicState β} {x : Sign β} {groups : List Tuplet}
      {rest : List (Sign β × List Tuplet)} (hok : s.handle x.token x.context = .ok (t,none))
      (hopen : s.tuplets.map Tuplet.ratio = (groups.map Tuplet.ratio).reverse)
      (hscales : s.Scales t x (Tuplet.productOf groups)) (hrest : Plays t rest u) :
      Plays s ((x,groups) :: rest) u

theorem scales_note_iff {w : WrittenNote β} (hkind : x.token.kind = .note)
    (hread : WrittenNote.read? x.token.text = some w) (factor : β) :
    s.Scales t x factor ↔
      match s.chord with
      | none => (t.memory s.voices.noteVoice).lastAdvance = x.context.beats w.length *
          (s.memory s.voices.noteVoice).brokenNext.getD 1.0 * factor
      | some chord => t.chord.map (·.factor) = some chord.factor ∧
          t.chord.map (·.firstAdvance) =
            some (chord.firstAdvance <|> some (x.context.beats w.length * chord.factor)) := by
  unfold Scales
  dsimp only
  rw [hkind]
  simp only [hread, Option.some.injEq, forall_eq']

theorem scales_rest_iff {length : β} (hkind : x.token.kind = .rest)
    (hread : readLength? (x.token.text.drop 1) = some length) (factor : β) :
    s.Scales t x factor ↔ (t.memory s.voices.noteVoice).lastAdvance =
      x.context.beats length * (s.memory s.voices.noteVoice).brokenNext.getD 1.0 * factor := by
  unfold Scales
  dsimp only
  rw [hkind]
  simp only [hread, Option.some.injEq, forall_eq']

theorem Plays.append {first more : List (Sign β × List Tuplet)} (h : Plays s first t)
    (h' : Plays t more u) : Plays s (first ++ more) u := by
  induction h with
  | done s => exact h'
  | next hok hopen hscales hrest ih => exact .next hok hopen hscales (ih h')

/-! ## Items -/

/-- Between items nothing is open but groups, of which the innermost still waits for some items. -/
structure Between (s : MusicState β) (groups : List Tuplet) (count : Nat) : Prop where
  inRange : s.InRange
  chord : s.chord = none
  graceGroup : s.graceGroup = none
  around : Tuplet.Around groups s.tuplets count

variable {n : Nat}

theorem Between.ratios (h : s.Between groups (n + 1)) :
    s.tuplets.map Tuplet.ratio = (groups.map Tuplet.ratio).reverse := h.around.ratios n.succ_pos

theorem Between.scaleAll_eq (h : s.Between groups (n + 1)) :
    (Tuplet.scaleAll s.tuplets : β) = Tuplet.productOf groups :=
  Tuplet.scaleAll_eq_productOf h.ratios

/-- What is counted as an item has been read between two states. -/
structure Counts (s t : MusicState β) : Prop where
  inRange : t.InRange
  chord : t.chord = none
  graceGroup : t.graceGroup = none
  tuplets : t.tuplets = Tuplet.countNote s.tuplets

theorem Between.counts (h : s.Between groups (n + 1)) (ht : s.Counts t) : t.Between groups n where
  inRange := ht.inRange
  chord := ht.chord
  graceGroup := ht.graceGroup
  around := ht.tuplets ▸ h.around.count

theorem brokenNext_resolved (s : MusicState β) (w : WrittenNote β) (key : Key) :
    ((s.resolved w key).memory s.voices.noteVoice).brokenNext =
      (s.memory s.voices.noteVoice).brokenNext := by
  rw [resolved, memory_setMemory, VoiceMemory.resolve]
  cases w.accidental <;> rfl

theorem Between.note (h : s.Between groups (n + 1)) (hx : x.IsNote) :
    ∃ t, s.handle x.token x.context = .ok (t,none) ∧ s.Counts t ∧
      s.Scales t x (Tuplet.productOf groups) := by
  obtain ⟨hkind,hread⟩ := hx
  obtain ⟨w,hread⟩ := Option.isSome_iff_exists.mp hread
  obtain ⟨t,v,i,hok,hv,hadds⟩ := h.inRange.note_single hread x.context h.graceGroup h.chord
  have hid := VoiceTable.find?_id hv
  rw [← handle_note hkind] at hok
  obtain ⟨hinRange,-⟩ := h.inRange.of_handle hok
  refine ⟨t,hok,⟨hinRange,hadds.chord.trans h.chord,hadds.graceGroup.trans h.graceGroup,
    hadds.tuplets⟩,?_⟩
  rw [scales_note_iff hkind hread, h.chord]
  have hadvance := hadds.lastAdvance
  rw [hid, brokenNext_resolved] at hadvance
  exact hadvance.trans (congrArg _ h.scaleAll_eq)

theorem Between.rest (h : s.Between groups (n + 1)) (hx : x.IsRest) :
    ∃ t, s.handle x.token x.context = .ok (t,none) ∧ s.Counts t ∧
      s.Scales t x (Tuplet.productOf groups) := by
  obtain ⟨hkind,hread⟩ := hx
  obtain ⟨length,hread⟩ := Option.isSome_iff_exists.mp hread
  have hok : ∃ t, s.handle x.token x.context = .ok (t,none) ∧ t.chord = none ∧
      t.graceGroup = none ∧ t.tuplets = Tuplet.countNote s.tuplets ∧
      (t.memory s.voices.noteVoice).lastAdvance = x.context.beats length *
        (s.memory s.voices.noteVoice).brokenNext.getD 1.0 * Tuplet.scaleAll s.tuplets := by
    rw [MusicState.handle, hkind]
    simp only [MusicState.rest, h.graceGroup, h.chord, hread]
    refine ⟨_,rfl,rfl,rfl,rfl,?_⟩
    exact congrArg VoiceMemory.lastAdvance (memory_setMemory s s.voices.noteVoice _)
  obtain ⟨t,hok,hchord,hgrace,htuplets,hadvance⟩ := hok
  obtain ⟨hinRange,-⟩ := h.inRange.of_handle hok
  refine ⟨t,hok,⟨hinRange,hchord,hgrace,htuplets⟩,?_⟩
  rw [scales_rest_iff hkind hread]
  exact hadvance.trans (congrArg _ h.scaleAll_eq)

/-! ## Chords -/

/-- A chord is open in the active voice, which has all of its notes. -/
structure InChord (s : MusicState β) (id : String) (chord : OpenChord β) : Prop where
  inRange : s.InRange
  graceGroup : s.graceGroup = none
  opened : s.chord = some chord
  active : s.voices.active = some id
  notes : ∀ i ∈ chord.notes, i < (s.voices.notesOf id).length

variable {id : String} {chord : OpenChord β}

theorem Between.openChord (h : s.Between groups (n + 1)) (hkind : x.token.kind = .chordStart) :
    ∃ t chord, s.handle x.token x.context = .ok (t,none) ∧
      t.InChord s.voices.noteVoice chord ∧ t.tuplets = s.tuplets ∧
      s.Scales t x (Tuplet.productOf groups) := by
  have hok : ∃ t chord, s.handle x.token x.context = .ok (t,none) ∧ t.graceGroup = none ∧
      t.chord = some chord ∧ t.voices = s.voices.ensureActive ∧ t.tuplets = s.tuplets ∧
      chord.notes = [] ∧ chord.factor =
        (s.memory s.voices.noteVoice).brokenNext.getD 1.0 * Tuplet.scaleAll s.tuplets := by
    rw [MusicState.handle, hkind]
    simp only [MusicState.openChord, h.graceGroup, h.chord]
    exact ⟨_,_,rfl,rfl,rfl,rfl,rfl,rfl,rfl⟩
  obtain ⟨t,chord,hok,hgrace,hchord,hvoices,htuplets,hnotes,hfactor⟩ := hok
  obtain ⟨hinRange,-⟩ := h.inRange.of_handle hok
  refine ⟨t,chord,hok,⟨hinRange,hgrace,hchord,?_,by simp [hnotes]⟩,htuplets,?_⟩
  · rw [hvoices]
    exact VoiceTable.active_switchTo s.voices _
  · unfold Scales
    dsimp only
    rw [hkind, hchord]
    exact congrArg some (hfactor.trans (congrArg _ h.scaleAll_eq))

theorem noteVoice_of_active (h : s.voices.active = some id) :
    s.voices.noteVoice = id ∧ s.voices.ensureActive = s.voices := by
  refine ⟨?_,VoiceTable.ensureActive_of_active h⟩
  rw [VoiceTable.noteVoice, h]

theorem InChord.note (h : s.InChord id chord) (hx : x.IsNote) (factor : β) :
    ∃ t chord', s.handle x.token x.context = .ok (t,none) ∧ t.InChord id chord' ∧
      t.tuplets = s.tuplets ∧ s.Scales t x factor := by
  obtain ⟨hkind,hread⟩ := hx
  obtain ⟨w,hread⟩ := Option.isSome_iff_exists.mp hread
  obtain ⟨t,v,i,hok,hv,hadds⟩ := h.inRange.note_inChord hread x.context h.graceGroup h.opened
  obtain ⟨hid,hsame⟩ := noteVoice_of_active h.active
  rw [hid, hsame] at hv
  obtain rfl := VoiceTable.find?_id hv
  rw [← handle_note hkind] at hok
  obtain ⟨hinRange,-⟩ := h.inRange.of_handle hok
  refine ⟨t,_,hok,⟨hinRange,hadds.graceGroup.trans h.graceGroup,hadds.chord,?_,?_⟩,
    hadds.tuplets,?_⟩
  · exact hadds.active.trans ((congrArg (·.active) hsame).trans h.active)
  · intro j hj
    rcases List.mem_append.mp hj with hj | hj
    · have hlt := h.notes j hj
      rw [VoiceTable.notesOf_of_find? hv] at hlt
      exact hlt.trans_le hadds.notes
    · obtain ⟨note,hnote,-⟩ := hadds.sounds
      exact List.mem_singleton.mp hj ▸ (List.getElem?_eq_some_iff.mp hnote).1
  · rw [scales_note_iff hkind hread, h.opened, hadds.chord]
    exact ⟨rfl,rfl⟩

theorem InChord.close (h : s.InChord id chord) (hx : x.IsChordEnd) :
    ∃ t, s.handle x.token x.context = .ok (t,none) ∧ s.Counts t := by
  obtain ⟨hkind,hread⟩ := hx
  obtain ⟨length,hread⟩ := Option.isSome_iff_exists.mp hread
  obtain ⟨v,hv,-⟩ := h.inRange.active.exists_noteVoice
  have hnotes : ∀ i ∈ chord.notes, i < v.notes.length := by
    intro i hi
    have hlt := h.notes i hi
    obtain ⟨hid,hsame⟩ := noteVoice_of_active h.active
    rw [hid, hsame] at hv
    rwa [VoiceTable.notesOf_of_find? hv] at hlt
  obtain ⟨w,-,hclosed⟩ := closeChord_ok h.opened hread hv hnotes
  have hok : s.handle x.token x.context =
      (s.closed chord (chord.firstAdvance.getD 0.0 * length) w).accept := by
    rw [MusicState.handle, hkind]
    exact hclosed
  obtain ⟨hinRange,-⟩ := h.inRange.of_handle hok
  exact ⟨_,hok,hinRange,rfl,h.graceGroup,rfl⟩

theorem Between.openTuplet (h : s.Between groups (n + 1)) {tuplet : Tuplet} (hx : x.Opens tuplet) :
    ∃ t, s.handle x.token x.context = .ok (t,none) ∧
      t.Between (groups ++ [tuplet]) tuplet.remaining ∧ t.tuplets = tuplet :: s.tuplets := by
  obtain ⟨hkind,hread,hremaining⟩ := hx
  have hok : s.handle x.token x.context =
      .ok ({ s with tuplets := tuplet :: s.tuplets },none) := by
    rw [MusicState.handle, hkind]
    simp only [MusicState.openTuplet, hread, Tuplet.isOpen, decide_eq_true_eq]
    exact if_pos hremaining
  obtain ⟨hinRange,-⟩ := h.inRange.of_handle hok
  exact ⟨_,hok,⟨hinRange,h.chord,h.graceGroup,h.around.open tuplet⟩,rfl⟩

/-! ## Whole music -/

theorem Plays.run {signs : List (Sign β × List Tuplet)} (h : Plays s signs t) :
    s.run (signs.map fun x => .token x.1.token x.1.context) = .ok t := by
  induction h with
  | done s => rfl
  | next hok hopen hscales hrest ih =>
    rw [List.map_cons, MusicState.run, move, hok]
    exact ih

end MusicState
end AbcTune
