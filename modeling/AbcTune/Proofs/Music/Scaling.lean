import Mathlib.Tactic.FieldSimp
import Mathlib.Tactic.Linarith
import AbcTune.Proofs.Music.Moves
import AbcTune.Proofs.Voice.Notes
import AbcTune.Proofs.Voice.Scaling

/-! # Music in another unit length

Nothing that is read is compared with a fixed time, a rest of whole bars apart, which takes its
length from the meter. So music under a unit length that is some number of times as long is the same
music with all its times multiplied by that number, with the same problems at the same places.
-/
namespace AbcTune

/-! ## Times multiplied by a number -/

def Grace.magnify (c : Rat) (g : Grace Rat) : Grace Rat := { g with beats := c * g.beats }

def VoiceMemory.magnify (c : Rat) (m : VoiceMemory Rat) : VoiceMemory Rat :=
  { m with graces := m.graces.map (Grace.magnify c), lastAdvance := c * m.lastAdvance }

def OpenChord.magnify (c : Rat) (chord : OpenChord Rat) : OpenChord Rat :=
  { chord with
    start := c * chord.start
    firstAdvance := chord.firstAdvance.map (c * ·)
    graces := chord.graces.map (Grace.magnify c) }

/-- The same settings with a unit length that is `c` times as long. -/
def MusicContext.magnify (c : Rat) (context : MusicContext Rat) : MusicContext Rat :=
  { context with unitLength := c * context.unitLength }

/-- A state with all its times multiplied by a number. Factors of broken rhythm are no times. -/
def MusicState.magnify (c : Rat) (s : MusicState Rat) : MusicState Rat :=
  { s with
    voices := s.voices.magnify c
    memories := s.memories.map fun entry => (entry.1,entry.2.magnify c)
    graceGroup := s.graceGroup.map (·.map (Grace.magnify c))
    chord := s.chord.map (OpenChord.magnify c) }

/-- The same move under a unit length that is `c` times as long. -/
def MusicMove.magnify (c : Rat) : MusicMove Rat → MusicMove Rat
  | .token sign context => .token sign (context.magnify c)
  | .voices operation => .voices (operation.magnify c)
  | m => m

/-- A rest of whole bars, the only music whose length the meter gives. -/
def MusicMove.IsMultiRest : MusicMove Rat → Prop
  | .token sign _ => sign.kind = .multiRest
  | _ => False

/-- One step after another, each of which takes no notice of the unit of time. -/
theorem bind_eq_map {α γ : Type} {x y : Except Fault α} {f : α → α} {k l : α → Except Fault γ}
    {g : γ → γ} (hx : x = y.map f) (h : ∀ a, k (f a) = (l a).map g) :
    (x >>= k) = (y >>= l).map g := by
  subst hx
  cases y with
  | error fault => rfl
  | ok a => exact h a

/-! ## Placing notes -/

section Placing

variable (c : Rat) (v : Voice Rat)

theorem Voice.tiedNote_magnify (pitch : Nat) (places : List Nat) :
    (v.magnify c).tiedNote pitch places = v.tiedNote pitch places := by
  induction places with
  | nil => rfl
  | cons i rest ih =>
    have hnote : (v.magnify c).notes[i]? = v.notes[i]?.map (Note.magnify c) := List.getElem?_map
    rw [tiedNote, tiedNote, hnote, ih]
    cases v.notes[i]? <;> rfl

section Changes

variable {f g : Note Rat → Note Rat} (h : ∀ n, g (n.magnify c) = (f n).magnify c)

include h

theorem Voice.modifyNote_magnify (i : Nat) :
    (v.magnify c).modifyNote g i = (v.modifyNote f i).map (Voice.magnify c) := by
  have hnote : (v.magnify c).notes[i]? = v.notes[i]?.map (Note.magnify c) := List.getElem?_map
  rw [modifyNote, modifyNote, hnote]
  cases v.notes[i]? with
  | none => rfl
  | some n =>
    have hset : (v.notes.map (Note.magnify c)).set i (g (n.magnify c)) =
        (v.notes.set i (f n)).map (Note.magnify c) := by
      rw [h, List.map_set]
    exact congrArg (fun notes => Except.ok { v.magnify c with notes }) hset

theorem Voice.modifyNotes_magnify (places : List Nat) :
    (v.magnify c).modifyNotes g places = (v.modifyNotes f places).map (Voice.magnify c) := by
  induction places generalizing v with
  | nil => rfl
  | cons i rest ih =>
    rw [modifyNotes, modifyNotes, modifyNote_magnify c v h]
    cases v.modifyNote f i with
    | error fault => rfl
    | ok w => exact ih w

end Changes

theorem VoiceMemory.resolve_magnify (m : VoiceMemory Rat) (w : WrittenNote Rat) (key : Key) :
    (m.magnify c).resolve w key = ((m.resolve w key).1.magnify c,(m.resolve w key).2) := by
  unfold VoiceMemory.resolve
  cases w.accidental <;> rfl

theorem VoiceMemory.magnify_initial : initial.magnify c = initial := by
  simp [magnify, initial, Beats.zero_eq]

theorem place_magnify (m : VoiceMemory Rat) (written : Int) (start advance : Rat)
    (decorations : List Decoration) (part : Option Char) :
    place (v.magnify c) (m.magnify c) ⟨written,c * start,c * advance,decorations⟩ part =
      (place v m ⟨written,start,advance,decorations⟩ part).map
        fun (v,m,i) => (v.magnify c,m.magnify c,i) := by
  have hduration (staccato : Bool) : (if staccato then c * advance / 2.0 else c * advance) =
      c * (if staccato then advance / 2.0 else advance) := by
    split
    · rw [mul_div_assoc]
    · rfl
  have htied (pitch : Nat) := Voice.tiedNote_magnify c v pitch m.tiedFrom
  have hpitch : (v.magnify c).soundingPitch written = v.soundingPitch written := rfl
  unfold place
  dsimp only [VoiceMemory.magnify]
  rw [hduration, hpitch, htied]
  generalize (if (Shading.ofDecorations m.velocity (decorations ++ m.spans)).staccato = true
    then advance / 2.0 else advance) = duration
  cases v.tiedNote (v.soundingPitch written) m.tiedFrom with
  | error fault => rfl
  | ok found =>
    rw [ok_bind, ok_bind]
    cases found with
    | some i =>
      have hmodify := Voice.modifyNote_magnify c v
        (f := fun n => { n with duration := start + duration - n.start })
        (g := fun n => { n with duration := c * start + c * duration - n.start })
        (fun n => by simp only [Note.magnify, mul_add, mul_sub]) i
      dsimp only
      rw [hmodify]
      cases v.modifyNote (fun n => { n with duration := start + duration - n.start }) i <;> rfl
    | none =>
      simp only [Except.map, Voice.addNote, Voice.magnify, List.length_map, List.map_append,
        List.map_singleton]
      rfl

/-- The beats of grace notes together. -/
theorem sum_magnify (graces : List (Grace Rat)) :
    Beats.sum ((graces.map (Grace.magnify c)).map (·.beats)) =
      c * Beats.sum (graces.map (·.beats)) := by
  have hfold (init : Rat) :
      ((graces.map (Grace.magnify c)).map (·.beats)).foldl (· + ·) (c * init) =
        c * (graces.map (·.beats)).foldl (· + ·) init := by
    induction graces generalizing init with
    | nil => rfl
    | cons g rest ih =>
      simp only [List.map_cons, List.foldl_cons]
      rw [← ih, mul_add]
      rfl
  have hsum := hfold 0.0
  rw [Beats.zero_eq, mul_zero] at hsum
  rw [Beats.sum, Beats.sum, Beats.zero_eq]
  exact hsum

theorem addGraces_magnify (velocity : Int) (factor : Rat) (part : Option Char)
    (graces : List (Grace Rat)) (time : Rat) :
    addGraces (v.magnify c) velocity factor part (graces.map (Grace.magnify c)) (c * time) =
      ((addGraces v velocity factor part graces time).1.magnify c,
        c * (addGraces v velocity factor part graces time).2) := by
  induction graces generalizing v time with
  | nil => rfl
  | cons g rest ih =>
    have hadd (n : Note Rat) : (v.magnify c).addNote (n.magnify c) = (v.addNote n).magnify c := by
      simp [Voice.addNote, Voice.magnify]
    have hbeats : c * g.beats * factor = c * (g.beats * factor) := mul_assoc c g.beats factor
    simp only [List.map_cons, addGraces]
    rw [← ih, ← hadd]
    simp only [Grace.magnify, Note.magnify, hbeats, mul_add]
    rfl

theorem placeGraces_magnify (hc : 0 < c) (velocity : Int) (graces : List (Grace Rat))
    (start principal : Rat) (part : Option Char) :
    placeGraces (v.magnify c) velocity (graces.map (Grace.magnify c)) (c * start) (c * principal)
        part =
      ((placeGraces v velocity graces start principal part).1.magnify c,
        c * (placeGraces v velocity graces start principal part).2) := by
  unfold placeGraces
  dsimp only
  rw [sum_magnify, Beats.zero_eq]
  generalize Beats.sum (graces.map (·.beats)) = total
  by_cases htotal : total ≤ 0
  · rw [if_pos htotal, if_pos (mul_nonpos_of_nonneg_of_nonpos hc.le htotal), mul_zero]
  · have htotal' : ¬ c * total ≤ 0 := not_le.mpr (mul_pos hc (not_le.mp htotal))
    rw [if_neg htotal, if_neg htotal']
    -- what the grace notes are shortened by is a ratio of times
    have hfactor :
        (if c * principal * mostGraceShare < c * total
          then c * principal * mostGraceShare / (c * total) else (1.0 : Rat)) =
        if principal * mostGraceShare < total then principal * mostGraceShare / total
          else (1.0 : Rat) := by
      rw [mul_assoc, mul_div_mul_left _ _ hc.ne']
      exact if_congr (mul_lt_mul_iff_right₀ hc) rfl rfl
    rw [hfactor, addGraces_magnify]
    dsimp only
    rw [mul_sub]

end Placing

namespace MusicState

variable {c : Rat} {s : MusicState Rat}

/-! ## What is remembered -/

theorem magnify_initial : (initial : MusicState Rat).magnify c = initial := by
  simp [magnify, initial, VoiceTable.magnify_empty]

theorem memory_magnify (id : String) : (s.magnify c).memory id = (s.memory id).magnify c := by
  have hlookup : (s.magnify c).memories.lookup id =
      (s.memories.lookup id).map (VoiceMemory.magnify c) := by
    simp only [magnify]
    induction s.memories with
    | nil => rfl
    | cons entry rest ih =>
      rw [List.map_cons, List.lookup_cons, List.lookup_cons, ih]
      cases id == entry.1 <;> rfl
  rw [memory, memory, hlookup]
  cases s.memories.lookup id with
  | none => exact (VoiceMemory.magnify_initial c).symm
  | some m => rfl

theorem setMemory_magnify (id : String) (m : VoiceMemory Rat) :
    (s.magnify c).setMemory id (m.magnify c) = (s.setMemory id m).magnify c := by
  simp only [setMemory, magnify, List.map_cons, List.filter_map]
  rfl

theorem mapMemory_magnify (id : String) {f g : VoiceMemory Rat → VoiceMemory Rat}
    (h : ∀ m, g (m.magnify c) = (f m).magnify c) :
    (s.magnify c).mapMemory id g = (s.mapMemory id f).magnify c := by
  rw [mapMemory, memory_magnify, h, setMemory_magnify, mapMemory]

theorem setVoice_magnify (v : Voice Rat) :
    (s.magnify c).setVoice (v.magnify c) = (s.setVoice v).magnify c :=
  congrArg (fun voices => { s.magnify c with voices })
    (VoiceTable.modify_magnify c s.voices v.id (f := fun _ => v) (g := fun _ => v.magnify c)
      fun _ => rfl)

theorem advance_magnify (beats : Rat) :
    { s.magnify c with voices := (s.magnify c).voices.advance (c * beats) } =
      magnify c { s with voices := s.voices.advance beats } :=
  congrArg (fun voices => { s.magnify c with voices })
    (VoiceTable.advance_magnify c s.voices beats)

theorem step_magnify (beats : Rat) : (s.magnify c).step (c * beats) = (s.step beats).magnify c :=
  congrArg (fun voices => { s.magnify c with voices, tuplets := Tuplet.countNote s.tuplets })
    (VoiceTable.advance_magnify c s.voices beats)

theorem ensureActive_magnify :
    { s.magnify c with voices := (s.magnify c).voices.ensureActive } =
      magnify c { s with voices := s.voices.ensureActive } :=
  congrArg (fun voices => { s.magnify c with voices }) (VoiceTable.ensureActive_magnify c s.voices)

theorem noteVoice_magnify : (s.magnify c).voices.noteVoice = s.voices.noteVoice :=
  VoiceTable.noteVoice_magnify c s.voices

theorem beats_magnify (context : MusicContext Rat) (length : Rat) :
    (context.magnify c).beats length = c * context.beats length := by
  unfold MusicContext.beats MusicContext.magnify
  dsimp only
  rw [mul_left_comm _ c, mul_assoc]

/-! ## Single tokens -/

/-- The outcome of a token with all its times multiplied by a number. -/
def Handled.magnify (c : Rat) (r : Handled Rat) : Handled Rat := (r.1.magnify c,r.2)

variable {text : Text} {context : MusicContext Rat} {v : Voice Rat} {t : MusicState Rat}

theorem accept_magnify (h : t = s.magnify c) :
    t.accept = s.accept.map (Handled.magnify c) := h ▸ rfl

theorem reject_magnify (h : t = s.magnify c) (problem : MusicProblem) :
    t.reject problem = (s.reject problem).map (Handled.magnify c) := h ▸ rfl

theorem addGrace_magnify (group : List (Grace Rat)) (written : Int) (nominal : Rat) :
    (s.magnify c).addGrace (group.map (Grace.magnify c)) written (c * nominal) =
      (s.addGrace group written nominal).map (Handled.magnify c) := by
  have hgrace : (⟨written,c * nominal * graceScale⟩ : Grace Rat) =
      Grace.magnify c ⟨written,nominal * graceScale⟩ := by rw [mul_assoc, Grace.magnify]
  rw [addGrace, hgrace, ← List.map_singleton, ← List.map_append]
  rfl

theorem addToChord_magnify (chord : OpenChord Rat) (written : Int) (nominal : Rat) :
    (s.magnify c).addToChord (chord.magnify c) (v.magnify c) written (c * nominal) =
      (s.addToChord chord v written nominal).map (Handled.magnify c) := by
  have hadvance : c * nominal * chord.factor = c * (nominal * chord.factor) := mul_assoc _ _ _
  have hfirst : (chord.firstAdvance.map (c * ·) <|> some (c * (nominal * chord.factor))) =
      (chord.firstAdvance <|> some (nominal * chord.factor)).map (c * ·) := by
    cases chord.firstAdvance <;> rfl
  have hmemory : (s.magnify c).memory (v.magnify c).id = (s.memory v.id).magnify c :=
    memory_magnify v.id
  have hplace := place_magnify c v (s.memory v.id) written chord.start (nominal * chord.factor)
    (s.decorations ++ chord.decorations) s.part
  rw [← hmemory, ← hadvance] at hplace
  refine bind_eq_map hplace fun (w,m,i) => accept_magnify ?_
  rw [← setVoice_magnify, ← setMemory_magnify]
  simp only [OpenChord.magnify, magnify, Option.map_some, hadvance, hfirst]
  rfl

theorem addSingle_magnify (hc : 0 < c) (written : Int) (nominal : Rat) :
    (s.magnify c).addSingle (v.magnify c) written (c * nominal) =
      (s.addSingle v written nominal).map (Handled.magnify c) := by
  have hmemory : (s.magnify c).memory (v.magnify c).id = (s.memory v.id).magnify c :=
    memory_magnify v.id
  have hadvance : c * nominal * ((s.memory v.id).magnify c).brokenNext.getD 1.0 *
      Tuplet.scaleAll (s.magnify c).tuplets =
        c * (nominal * (s.memory v.id).brokenNext.getD 1.0 * Tuplet.scaleAll s.tuplets) := by
    rw [mul_assoc c, mul_assoc c]
    rfl
  unfold addSingle
  dsimp only
  rw [hmemory, hadvance]
  generalize nominal * (s.memory v.id).brokenNext.getD 1.0 * Tuplet.scaleAll s.tuplets = advance
  have hgraces : placeGraces (v.magnify c) ((s.memory v.id).magnify c).velocity
      ((s.memory v.id).magnify c).graces (s.magnify c).voices.cursor (c * advance)
      (s.magnify c).part = _ :=
    placeGraces_magnify c v hc (s.memory v.id).velocity (s.memory v.id).graces s.voices.cursor
      advance s.part
  rw [hgraces]
  obtain ⟨u,borrowed⟩ := placeGraces v (s.memory v.id).velocity (s.memory v.id).graces
    s.voices.cursor advance s.part
  have hplace := place_magnify c u { s.memory v.id with brokenNext := none, graces := [] } written
    (s.voices.cursor + borrowed) (advance - borrowed) s.decorations s.part
  rw [mul_add, mul_sub] at hplace
  refine bind_eq_map hplace fun (w,m,i) => accept_magnify ?_
  rw [← step_magnify, ← setVoice_magnify, ← setMemory_magnify]
  rfl

theorem note_magnify (hc : 0 < c) :
    (s.magnify c).note text (context.magnify c) =
      (s.note text context).map (Handled.magnify c) := by
  unfold note
  cases WrittenNote.read? (β := Rat) text with
  | none => rfl
  | some w =>
    have hkey : (context.magnify c).key = context.key := rfl
    dsimp only
    rw [noteVoice_magnify, ensureActive_magnify, memory_magnify, VoiceMemory.resolve_magnify,
      setMemory_magnify, beats_magnify, hkey]
    generalize (MusicState.memory { s with voices := s.voices.ensureActive }
      s.voices.noteVoice).resolve w context.key = resolved
    dsimp only
    generalize MusicState.setMemory _ _ resolved.1 = t
    have hgroup : (t.magnify c).graceGroup = t.graceGroup.map (·.map (Grace.magnify c)) := rfl
    have hchord : (t.magnify c).chord = t.chord.map (OpenChord.magnify c) := rfl
    have hvoice (id : String) : (t.magnify c).voices.find? id =
        (t.voices.find? id).map (Voice.magnify c) := VoiceTable.find?_magnify c t.voices id
    rw [hgroup, hchord, hvoice]
    cases t.graceGroup with
    | some group => exact addGrace_magnify _ _ _
    | none =>
      cases t.voices.find? s.voices.noteVoice with
      | none => exact accept_magnify rfl
      | some v =>
        cases t.chord with
        | some chord => exact addToChord_magnify _ _ _
        | none => exact addSingle_magnify hc _ _

theorem rest_magnify :
    (s.magnify c).rest text (context.magnify c) =
      (s.rest text context).map (Handled.magnify c) := by
  have hinside : ((s.magnify c).graceGroup.isSome || (s.magnify c).chord.isSome) =
      (s.graceGroup.isSome || s.chord.isSome) :=
    congrArg₂ (· || ·) Option.isSome_map Option.isSome_map
  unfold rest
  rw [hinside]
  split
  · exact reject_magnify rfl _
  · cases readLength? (β := Rat) (text.drop 1) with
    | none => exact reject_magnify rfl _
    | some length =>
      have hadvance : c * context.beats length *
          ((s.memory s.voices.noteVoice).magnify c).brokenNext.getD 1.0 *
            Tuplet.scaleAll (s.magnify c).tuplets =
          c * (context.beats length * (s.memory s.voices.noteVoice).brokenNext.getD 1.0 *
            Tuplet.scaleAll s.tuplets) := by
        rw [mul_assoc c, mul_assoc c]
        rfl
      dsimp only
      rw [noteVoice_magnify, memory_magnify, beats_magnify, hadvance]
      refine accept_magnify ?_
      rw [← step_magnify, ← setMemory_magnify]
      exact congrArg (fun voices => (setMemory { s.magnify c with voices, decorations := [] }
        s.voices.noteVoice _).step _) (VoiceTable.ensureActive_magnify c s.voices)

theorem barLine_magnify : (s.magnify c).barLine = s.barLine.map (Handled.magnify c) := by
  unfold barLine
  have hactive : (s.magnify c).voices.active = s.voices.active := rfl
  rw [hactive]
  cases s.voices.active with
  | none => exact accept_magnify rfl
  | some id => exact accept_magnify (mapMemory_magnify id fun _ => rfl)

theorem openGrace_magnify : (s.magnify c).openGrace = s.openGrace.map (Handled.magnify c) := by
  unfold openGrace
  have hgroup : (s.magnify c).graceGroup.isSome = s.graceGroup.isSome := Option.isSome_map
  rw [hgroup]
  split
  · exact reject_magnify rfl _
  · exact accept_magnify rfl

theorem closeGrace_magnify : (s.magnify c).closeGrace = s.closeGrace.map (Handled.magnify c) := by
  unfold closeGrace
  have hgroup : (s.magnify c).graceGroup = s.graceGroup.map (·.map (Grace.magnify c)) := rfl
  rw [hgroup]
  cases s.graceGroup with
  | none => exact reject_magnify rfl _
  | some group =>
    dsimp only [Option.map_some]
    rw [noteVoice_magnify]
    have hmap := mapMemory_magnify (c := c)
      (s := { s with graceGroup := none, voices := s.voices.ensureActive }) s.voices.noteVoice
      (f := fun m => { m with graces := m.graces ++ group })
      (g := fun m => { m with graces := m.graces ++ group.map (Grace.magnify c) })
      fun m => by simp [VoiceMemory.magnify]
    refine accept_magnify (Eq.trans ?_ hmap)
    exact congrArg (fun voices => mapMemory { s.magnify c with graceGroup := none, voices } _ _)
      (VoiceTable.ensureActive_magnify c s.voices)

theorem openTuplet_magnify :
    (s.magnify c).openTuplet text (context.magnify c) =
      (s.openTuplet text context).map (Handled.magnify c) := by
  unfold openTuplet
  have hmeter : (context.magnify c).meter = context.meter := rfl
  rw [hmeter]
  cases Tuplet.read? text context.meter with
  | none => exact reject_magnify rfl _
  | some u =>
    dsimp only
    split
    · exact accept_magnify rfl
    · exact accept_magnify rfl

theorem tie_magnify : (s.magnify c).tie = s.tie.map (Handled.magnify c) := by
  unfold tie
  dsimp only
  rw [noteVoice_magnify, ensureActive_magnify]
  exact accept_magnify (mapMemory_magnify _ fun _ => rfl)

theorem openChord_magnify : (s.magnify c).openChord = s.openChord.map (Handled.magnify c) := by
  unfold openChord
  have hchord : (s.magnify c).chord.isSome = s.chord.isSome := Option.isSome_map
  have hgroup : (s.magnify c).graceGroup.isSome = s.graceGroup.isSome := Option.isSome_map
  rw [hchord, hgroup]
  split
  · exact reject_magnify rfl _
  · split
    · exact reject_magnify rfl _
    · dsimp only
      rw [noteVoice_magnify, memory_magnify]
      refine accept_magnify ?_
      rw [← setMemory_magnify]
      exact congrArg (fun voices : VoiceTable Rat => setMemory { s.magnify c with
        voices
        chord := some {
          start := voices.cursor
          notes := []
          firstAdvance := none
          factor := (s.memory s.voices.noteVoice).brokenNext.getD 1.0 * Tuplet.scaleAll s.tuplets
          decorations := s.decorations
          graces := ((s.memory s.voices.noteVoice).magnify c).graces }
        decorations := [] } s.voices.noteVoice _) (VoiceTable.ensureActive_magnify c s.voices)

theorem remaining_magnify (hc : 0 < c) (length taken : Rat) :
    remaining (c * length) (c * taken) = c * remaining length taken := by
  rw [remaining, remaining, ← mul_sub, ← Beats.later_mul hc, Beats.zero_eq, mul_zero]

theorem finishChord_magnify (hc : 0 < c) (velocity : Int) (chord : OpenChord Rat)
    (multiplier advance : Rat) (part : Option Char) :
    finishChord (v.magnify c) velocity (chord.magnify c) multiplier (c * advance) part =
      (finishChord v velocity chord multiplier advance part).map (Voice.magnify c) := by
  have hlengthen := Voice.modifyNotes_magnify c v
    (f := fun n => { n with duration := n.duration * multiplier })
    (g := fun n => { n with duration := n.duration * multiplier })
    (fun n => by rw [Note.magnify, Note.magnify, mul_assoc]) chord.notes
  refine bind_eq_map hlengthen fun w => ?_
  have hempty : (chord.magnify c).graces.isEmpty = chord.graces.isEmpty := List.isEmpty_map
  have hgraces : placeGraces (w.magnify c) velocity (chord.magnify c).graces (chord.magnify c).start
      (c * advance) part = _ :=
    placeGraces_magnify c w hc velocity chord.graces chord.start advance part
  rw [hempty, hgraces]
  split
  · rfl
  · obtain ⟨u,borrowed⟩ := placeGraces w velocity chord.graces chord.start advance part
    refine Voice.modifyNotes_magnify c u (fun n => ?_) chord.notes
    simp only [Note.magnify, remaining_magnify hc, mul_add]

theorem closeChord_magnify (hc : 0 < c) :
    (s.magnify c).closeChord text = (s.closeChord text).map (Handled.magnify c) := by
  unfold closeChord
  have hchord : (s.magnify c).chord = s.chord.map (OpenChord.magnify c) := rfl
  rw [hchord]
  cases s.chord with
  | none => exact reject_magnify rfl _
  | some chord =>
    dsimp only [Option.map_some]
    cases readLength? (β := Rat) (text.drop 1) with
    | none =>
      exact reject_magnify (s := { s with chord := none }) rfl (.badChordLength text)
    | some multiplier =>
      have hadvance : (chord.magnify c).firstAdvance.getD 0.0 * multiplier =
          c * (chord.firstAdvance.getD 0.0 * multiplier) := by
        rw [OpenChord.magnify]
        cases chord.firstAdvance with
        | none => simp [Beats.zero_eq]
        | some first => exact mul_assoc c first multiplier
      generalize ht :
        ({ s with chord := none, voices := s.voices.ensureActive } : MusicState Rat) = t
      have htable : ({ s.magnify c with
          chord := none, voices := (s.magnify c).voices.ensureActive } : MusicState Rat) =
          t.magnify c :=
        ht ▸ congrArg (fun voices => { s.magnify c with chord := none, voices })
          (VoiceTable.ensureActive_magnify c s.voices)
      have hvoices : (s.magnify c).voices.ensureActive = s.voices.ensureActive.magnify c :=
        VoiceTable.ensureActive_magnify c s.voices
      have hpart : (s.magnify c).part = s.part := rfl
      dsimp only
      rw [htable]
      simp only [hadvance, hpart, hvoices, noteVoice_magnify, VoiceTable.find?_magnify,
        memory_magnify]
      generalize chord.firstAdvance.getD 0.0 * multiplier = advance
      cases s.voices.ensureActive.find? s.voices.noteVoice with
      | none =>
        refine accept_magnify ?_
        rw [← step_magnify, ← setMemory_magnify]
        rfl
      | some v =>
        refine bind_eq_map (finishChord_magnify hc (t.memory s.voices.noteVoice).velocity chord
          multiplier advance s.part) fun w => accept_magnify ?_
        rw [← step_magnify, ← setMemory_magnify, ← setVoice_magnify]
        rfl

/-- Notes stretched from an origin are stretched alike in all units. -/
theorem stretch_magnify (hc : 0 < c) (origin factor : Rat) (n : Note Rat) :
    let stop := origin + (n.stop - origin) * factor
    let after := c * origin + ((n.magnify c).stop - c * origin) * factor
    { n.magnify c with duration := remaining after (n.magnify c).start } =
      Note.magnify c { n with duration := remaining stop n.start } := by
  have hstop : (n.magnify c).stop = c * n.stop := (mul_add c n.start n.duration).symm
  have hafter : c * origin + (c * n.stop - c * origin) * factor =
      c * (origin + (n.stop - origin) * factor) := by ring
  dsimp only
  rw [hstop, hafter]
  exact congrArg (fun duration => { n.magnify c with duration }) (remaining_magnify hc _ n.start)

theorem brokenRhythm_magnify (hc : 0 < c) :
    (s.magnify c).brokenRhythm text = (s.brokenRhythm text).map (Handled.magnify c) := by
  unfold brokenRhythm
  have hactive : (s.magnify c).voices.active = s.voices.active := rfl
  rw [hactive]
  cases s.voices.active with
  | none => exact reject_magnify rfl _
  | some id =>
    have hadvance : ((s.memory id).magnify c).lastAdvance = c * (s.memory id).lastAdvance := rfl
    have hstarted : c * (s.memory id).lastAdvance ≤ 0.0 ↔ (s.memory id).lastAdvance ≤ 0.0 := by
      rw [Beats.zero_eq]
      exact ⟨fun h => nonpos_of_mul_nonpos_right h hc,mul_nonpos_of_nonneg_of_nonpos hc.le⟩
    have hcursor : (s.magnify c).voices.cursor = c * s.voices.cursor := rfl
    have hfind : (s.magnify c).voices.find? id = (s.voices.find? id).map (Voice.magnify c) :=
      VoiceTable.find?_magnify c s.voices id
    dsimp only
    rw [memory_magnify, hadvance, if_congr hstarted rfl rfl, hcursor, hfind, ← mul_sub]
    split
    · exact reject_magnify rfl _
    · generalize s.voices.cursor - (s.memory id).lastAdvance = origin
      generalize brokenFactors (β := Rat) text = factors
      have hdelta : c * (s.memory id).lastAdvance * (factors.1 - 1.0) =
          c * ((s.memory id).lastAdvance * (factors.1 - 1.0)) := mul_assoc _ _ _
      have hbefore : c * (s.memory id).lastAdvance * factors.1 =
          c * ((s.memory id).lastAdvance * factors.1) := mul_assoc _ _ _
      rw [hdelta, hbefore]
      cases s.voices.find? id with
      | none =>
        refine accept_magnify ?_
        rw [← advance_magnify, ← setMemory_magnify]
        rfl
      | some v =>
        refine bind_eq_map (Voice.modifyNotes_magnify c v
          (stretch_magnify hc origin factors.1) (s.memory id).lastGroup) fun w => accept_magnify ?_
        rw [← advance_magnify, ← setMemory_magnify, ← setVoice_magnify]
        rfl

theorem decorate_magnify (name : Text) :
    (s.magnify c).decorate name = (s.decorate name).map (Handled.magnify c) := rfl

theorem namedDecoration_magnify :
    (s.magnify c).namedDecoration text = (s.namedDecoration text).map (Handled.magnify c) := by
  unfold namedDecoration
  dsimp only
  rw [noteVoice_magnify, ensureActive_magnify, memory_magnify]
  split
  · exact accept_magnify (mapMemory_magnify _ fun _ => rfl)
  · have hspans (m : VoiceMemory Rat) : (m.magnify c).spans = m.spans := rfl
    rw [hspans]
    split
    · exact accept_magnify (mapMemory_magnify _ fun _ => rfl)
    · exact reject_magnify rfl _
  · exact decorate_magnify _

/-- A token that is no rest of whole bars has the same problem in all units, if it has one. -/
theorem handle_magnify (hc : 0 < c) {token : Token} (hkind : token.kind ≠ .multiRest) :
    (s.magnify c).handle token (context.magnify c) =
      (s.handle token context).map (Handled.magnify c) := by
  obtain ⟨kind,text,line,column,properties⟩ := token
  cases kind with
  | note => exact note_magnify hc
  | rest => exact rest_magnify
  | multiRest => exact absurd rfl hkind
  | bar | repeatStart | repeatEnd | repeatBoth | ending => exact barLine_magnify
  | chordStart => exact openChord_magnify
  | chordEnd => exact closeChord_magnify hc
  | graceStart => exact openGrace_magnify
  | graceEnd => exact closeGrace_magnify
  | tuplet => exact openTuplet_magnify
  | tie => exact tie_magnify
  | brokenRhythm => exact brokenRhythm_magnify hc
  | decoration => exact decorate_magnify text
  | extendedDecoration => exact namedDecoration_magnify
  | unknown => exact reject_magnify rfl _
  | field | inlineField | directive | comment | slurStart | slurEnd | chordSymbol | continuation
  | space => exact accept_magnify rfl

/-! ## Runs with their replies -/

/-- What is said of a move: what is wrong with a token, and what is open at the end of a line. -/
inductive Reply where
  | token (problem : Option MusicProblem)
  | lineEnd (problems : List StructureProblem)
  | nothing

section Replies

variable {β : Type} [Beats β]

def answer (s : MusicState β) : MusicMove β → Except Fault (MusicState β × Reply)
  | .token token context => (s.handle token context).map fun (t,problem) => (t,.token problem)
  | .endLine => .ok (s.endLine,.lineEnd s.openProblems)
  | .startPart label => .ok (s.startPart label,.nothing)
  | .voices operation => .ok ({ s with voices := s.voices.apply operation },.nothing)

/-- The state after a run, with what is said of its moves. -/
def answers (s : MusicState β) : List (MusicMove β) → Except Fault (MusicState β × List Reply)
  | [] => .ok (s,[])
  | m :: rest => do
    let (s,reply) ← s.answer m
    let (s,replies) ← s.answers rest
    .ok (s,reply :: replies)

theorem move_eq_answer (s : MusicState β) (m : MusicMove β) :
    s.move m = (s.answer m).map (·.1) := by
  cases m with
  | token token context =>
    rw [move, answer]
    cases s.handle token context <;> rfl
  | endLine | startPart | voices => rfl

theorem run_eq_answers (s : MusicState β) (moves : List (MusicMove β)) :
    s.run moves = (s.answers moves).map (·.1) := by
  induction moves generalizing s with
  | nil => rfl
  | cons m rest ih =>
    rw [run, answers, move_eq_answer]
    cases s.answer m with
    | error fault => rfl
    | ok outcome =>
      obtain ⟨t,reply⟩ := outcome
      refine (ih t).trans ?_
      dsimp only [ok_bind]
      cases t.answers rest <;> rfl

end Replies

theorem openProblems_magnify : (s.magnify c).openProblems = s.openProblems := by
  have hgroup : (s.magnify c).graceGroup.isSome = s.graceGroup.isSome := Option.isSome_map
  have hchord : (s.magnify c).chord.isSome = s.chord.isSome := Option.isSome_map
  rw [openProblems, openProblems, hgroup, hchord]
  rfl

theorem answer_magnify (hc : 0 < c) {m : MusicMove Rat} (hm : ¬ m.IsMultiRest) :
    (s.magnify c).answer (m.magnify c) = (s.answer m).map fun (t,reply) => (t.magnify c,reply) := by
  cases m with
  | token token context =>
    rw [answer, MusicMove.magnify, answer, handle_magnify hc hm]
    cases s.handle token context <;> rfl
  | endLine =>
    exact congrArg (fun problems => Except.ok ((s.magnify c).endLine,Reply.lineEnd problems))
      openProblems_magnify
  | startPart label => rfl
  | voices operation =>
    exact congrArg (fun voices => Except.ok ({ s.magnify c with voices },Reply.nothing))
      (VoiceTable.apply_magnify c s.voices hc operation)

/-- From states that differ in their unit of time the same music leads to such states again. -/
theorem answers_magnify (hc : 0 < c) {moves : List (MusicMove Rat)}
    (hmoves : ∀ m ∈ moves, ¬ m.IsMultiRest) :
    (s.magnify c).answers (moves.map (MusicMove.magnify c)) =
      (s.answers moves).map fun (t,replies) => (t.magnify c,replies) := by
  induction moves generalizing s with
  | nil => rfl
  | cons m rest ih =>
    obtain ⟨hm,hrest⟩ := List.forall_mem_cons.mp hmoves
    rw [List.map_cons, answers, answers]
    refine bind_eq_map (answer_magnify hc hm) fun (t,reply) => ?_
    exact bind_eq_map (ih hrest) fun (u,replies) => rfl

/-- Music read from the start under a unit length that is `c` times as long is the same music with
every start and duration of a note and every saved time multiplied by `c`; the same is said of each
token and at the end of each line, and where one run cannot go on the other cannot either. -/
theorem answers_unitLength (hc : 0 < c) {moves : List (MusicMove Rat)}
    (hmoves : ∀ m ∈ moves, ¬ m.IsMultiRest) :
    initial.answers (moves.map (MusicMove.magnify c)) =
      (initial.answers moves).map fun (s,replies) => (s.magnify c,replies) := by
  have hanswers := answers_magnify (s := initial) hc hmoves
  rwa [magnify_initial] at hanswers

/-- A tuplet left open, a tie, staccato, broken rhythm, and a chord in another voice whose grace
note is held back by the cap, with a unit length three times as long. -/
theorem answers_unitLength_tripled :
    ∃ (moves : List (MusicMove Rat)) (s : MusicState Rat) (replies : List Reply),
      (0 : Rat) < 3 ∧ (∀ m ∈ moves, ¬ m.IsMultiRest) ∧ initial.answers moves = .ok (s,replies) ∧
      (s.voices.notesOf "a").map (fun n => (n.start,n.duration)) =
        [(0,2/3),(2/3,1/4),(7/6,1/6)] ∧
      (s.voices.notesOf "b").map (fun n => (n.start,n.duration)) =
        [(1/2,1/2),(1/2,1/2),(0,1/2)] ∧
      initial.answers (moves.map (MusicMove.magnify 3)) = .ok (s.magnify 3,replies) := by
  let music (kind : TokenKind) (text : String) : MusicMove Rat :=
    .token ⟨kind,text.toList,1,1,[]⟩ .initial
  let moves : List (MusicMove Rat) := [.voices (.switchTo "a"),music .tuplet "(3:2:5",
    music .note "C",music .tie "-",music .note "C",music .decoration ".",music .note "E",
    music .brokenRhythm ">",music .note "G",.endLine,.voices (.switchTo "b"),
    music .graceStart "\x7b",music .note "D3",music .graceEnd "\x7d",music .chordStart "[",
    music .note "C",music .note "E",music .chordEnd "]2"]
  have hmoves : ∀ m ∈ moves, ¬ m.IsMultiRest := by simp [moves, music, MusicMove.IsMultiRest]
  have hnotes : (initial.answers moves).toOption.map (fun (s,_) =>
      ((s.voices.notesOf "a").map (fun n => (n.start,n.duration)),
        (s.voices.notesOf "b").map (fun n => (n.start,n.duration)))) =
      some ([(0,2/3),(2/3,1/4),(7/6,1/6)],[(1/2,1/2),(1/2,1/2),(0,1/2)]) := by decide +kernel
  obtain ⟨⟨s,replies⟩,hrun,hpair⟩ := exists_of_toOption_map hnotes
  obtain ⟨ha,hb⟩ := Prod.mk.inj hpair
  refine ⟨moves,s,replies,by decide,hmoves,hrun,ha,hb,?_⟩
  rw [answers_unitLength (by decide) hmoves, hrun]
  rfl

end MusicState
end AbcTune
