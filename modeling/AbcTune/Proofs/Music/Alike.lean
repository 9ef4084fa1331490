import Mathlib.Data.List.Find
import AbcTune.Proofs.Music.InRange

/-! # Notes under different settings

The settings of a voice decide the pitch, the channel and the velocity that a note sounds at. Two
voices that differ in their settings alone and place the same written notes come out alike in all
else. Ties are found by the pitch, so this holds as long as no pitch is limited to the range.
-/
namespace AbcTune

variable {β : Type}

namespace Voice

/-- Semitones that the settings of a voice add to every written pitch. -/
def shift (v : Voice β) : Int := v.transpose + 12 * v.octave

/-- A written pitch sounds within range, so that it is not limited. -/
def Reaches (v : Voice β) (written : Int) : Prop :=
  0 ≤ written + v.transpose + 12 * v.octave ∧ written + v.transpose + 12 * v.octave ≤ 127

instance (v : Voice β) (written : Int) : Decidable (v.Reaches written) :=
  inferInstanceAs (Decidable (_ ∧ _))

/-- A pitch sounds within range in both voices. -/
abbrev BothReach (a b : Voice β) (written : Int) : Prop :=
  a.Reaches written ∧ b.Reaches written

theorem soundingPitch_of_reaches {v : Voice β} {written : Int} (h : v.Reaches written) :
    (v.soundingPitch written : Int) = written + v.shift := by
  obtain ⟨hlow,hhigh⟩ := h
  unfold soundingPitch clampMidi clamp shift
  omega

end Voice

/-! ## Notes that are alike -/

/-- Notes of two voices that are the same but for what the settings of the voices decide. -/
structure Note.Alike (a b : Voice β) (n n' : Note β) : Prop where
  same : n' = { n with pitch := n'.pitch, velocity := n'.velocity, channel := n'.channel }
  pitch : (n'.pitch : Int) - n.pitch = b.shift - a.shift
  channels : n.channel = a.channel ∧ n'.channel = b.channel
  silent : (a.muted = true → n.velocity = 0) ∧ (b.muted = true → n'.velocity = 0)

section Notes

variable {a b v w : Voice β} {n n' : Note β} {places : List Nat} {written : Int}

theorem Note.Alike.start (h : Note.Alike a b n n') : n'.start = n.start :=
  (congrArg Note.start h.same :)

theorem Note.Alike.duration (h : Note.Alike a b n n') : n'.duration = n.duration :=
  (congrArg Note.duration h.same :)

/-- Notes that are alike are timed anew in the same way. -/
theorem Note.Alike.retime (h : Note.Alike a b n n') (start duration : β → β → β) :
    Note.Alike a b
      { n with start := start n.start n.duration, duration := duration n.start n.duration }
      { n' with start := start n'.start n'.duration, duration := duration n'.start n'.duration } := by
  rw [h.start, h.duration]
  exact ⟨congrArg (fun m => { m with
    start := start n.start n.duration
    duration := duration n.start n.duration }) h.same,h.pitch,h.channels,h.silent⟩

/-- Notes sound alike at pitches of the same written note. -/
theorem Note.Alike.pitch_iff (h : Note.Alike a b n n') (ha : a.Reaches written)
    (hb : b.Reaches written) :
    n'.pitch = b.soundingPitch written ↔ n.pitch = a.soundingPitch written := by
  have hpitch := h.pitch
  have hleft := Voice.soundingPitch_of_reaches ha
  have hright := Voice.soundingPitch_of_reaches hb
  omega

/-- Two voices with settings of their own that are alike in all else. -/
structure Voice.Alike (a b v w : Voice β) : Prop where
  left : v = { a with savedTime := v.savedTime, status := v.status, notes := v.notes }
  right : w = { b with savedTime := v.savedTime, status := v.status, notes := w.notes }
  length : w.notes.length = v.notes.length
  notes : ∀ i : Nat, ∀ n ∈ v.notes[i]?, ∀ n' ∈ w.notes[i]?, Note.Alike a b n n'

namespace Voice.Alike

theorem id_left (h : Alike a b v w) : v.id = a.id := (congrArg Voice.id h.left :)

theorem id_right (h : Alike a b v w) : w.id = b.id := (congrArg Voice.id h.right :)

theorem channel_left (h : Alike a b v w) : v.channel = a.channel :=
  (congrArg Voice.channel h.left :)

theorem channel_right (h : Alike a b v w) : w.channel = b.channel :=
  (congrArg Voice.channel h.right :)

theorem muted_left (h : Alike a b v w) : v.muted = a.muted := (congrArg Voice.muted h.left :)

theorem muted_right (h : Alike a b v w) : w.muted = b.muted := (congrArg Voice.muted h.right :)

theorem soundingPitch_left (h : Alike a b v w) (written : Int) :
    v.soundingPitch written = a.soundingPitch written := by
  rw [h.left]
  rfl

theorem soundingPitch_right (h : Alike a b v w) (written : Int) :
    w.soundingPitch written = b.soundingPitch written := by
  rw [h.right]
  rfl

theorem range_right (h : Alike a b v w) (hplaces : ∀ i ∈ places, i < v.notes.length) :
    ∀ i ∈ places, i < w.notes.length := h.length ▸ hplaces

/-- A note is tied to the same one in both voices. -/
theorem tiedNote (h : Alike a b v w) (ha : a.Reaches written) (hb : b.Reaches written)
    (hplaces : ∀ i ∈ places, i < v.notes.length) :
    w.tiedNote (w.soundingPitch written) places = v.tiedNote (v.soundingPitch written) places := by
  rw [Voice.tiedNote_eq hplaces, Voice.tiedNote_eq (h.range_right hplaces)]
  refine congrArg Except.ok (List.find?_congr ?_)
  intro i hi
  have hiv : i < v.notes.length := hplaces i hi
  have hiw : i < w.notes.length := h.range_right hplaces i hi
  have hv : v.notes[i]? = some v.notes[i] := List.getElem?_eq_getElem hiv
  have hw : w.notes[i]? = some w.notes[i] := List.getElem?_eq_getElem hiw
  have hpitch := (h.notes i _ hv _ hw).pitch_iff ha hb
  rw [← h.soundingPitch_left, ← h.soundingPitch_right] at hpitch
  rw [hv, hw]
  exact decide_eq_decide.mpr hpitch

theorem addNote (h : Alike a b v w) (hn : Note.Alike a b n n') :
    Alike a b (v.addNote n) (w.addNote n') where
  left := congrArg (fun u => u.addNote n) h.left
  right := congrArg (fun u => u.addNote n') h.right
  length := by simp [Voice.addNote, h.length]
  notes i m hm m' hm' := by
    change (v.notes ++ [n])[i]? = some m at hm
    change (w.notes ++ [n'])[i]? = some m' at hm'
    rw [List.getElem?_append] at hm hm'
    rw [h.length] at hm'
    split at hm
    · next hi =>
      rw [if_pos hi] at hm'
      exact h.notes i m hm m' hm'
    · next hi =>
      rw [if_neg hi, List.getElem?_singleton] at hm'
      rw [List.getElem?_singleton] at hm
      split at hm
      · next hlast =>
        rw [if_pos hlast] at hm'
        exact Option.some.inj hm ▸ Option.some.inj hm' ▸ hn
      · cases hm

theorem modifyNote (h : Alike a b v w) {f : Note β → Note β}
    (hf : ∀ n n', Note.Alike a b n n' → Note.Alike a b (f n) (f n')) {i : Nat}
    (hi : i < v.notes.length) :
    ∃ v' w', v.modifyNote f i = .ok v' ∧ w.modifyNote f i = .ok w' ∧ Alike a b v' w' ∧
      v.Extends v' := by
  have hi' : i < w.notes.length := h.length ▸ hi
  have hv : v.notes[i]? = some v.notes[i] := List.getElem?_eq_getElem hi
  have hw : w.notes[i]? = some w.notes[i] := List.getElem?_eq_getElem hi'
  have hnote := hf _ _ (h.notes i _ hv _ hw)
  refine ⟨{ v with notes := v.notes.set i (f v.notes[i]) },
    { w with notes := w.notes.set i (f w.notes[i]) },?_,?_,⟨?_,?_,?_,?_⟩,rfl,by simp⟩
  · simp only [Voice.modifyNote, hv]
  · simp only [Voice.modifyNote, hw]
  · exact congrArg (fun u => { u with notes := v.notes.set i (f v.notes[i]) }) h.left
  · exact congrArg (fun u => { u with notes := w.notes.set i (f w.notes[i]) }) h.right
  · simp [h.length]
  · intro j n hn n' hn'
    change (v.notes.set i _)[j]? = some n at hn
    change (w.notes.set i _)[j]? = some n' at hn'
    rw [List.getElem?_set] at hn hn'
    by_cases hij : i = j
    · rw [if_pos hij, if_pos hi] at hn
      rw [if_pos hij, if_pos hi'] at hn'
      exact Option.some.inj hn ▸ Option.some.inj hn' ▸ hnote
    · rw [if_neg hij] at hn hn'
      exact h.notes j n hn n' hn'

theorem modifyNotes (h : Alike a b v w) {f : Note β → Note β}
    (hf : ∀ n n', Note.Alike a b n n' → Note.Alike a b (f n) (f n'))
    (hplaces : ∀ i ∈ places, i < v.notes.length) :
    ∃ v' w', v.modifyNotes f places = .ok v' ∧ w.modifyNotes f places = .ok w' ∧
      Alike a b v' w' ∧ v.Extends v' := by
  induction places generalizing v w with
  | nil => exact ⟨v,w,rfl,rfl,h,.refl v⟩
  | cons i rest ih =>
    obtain ⟨hi,hrest⟩ := List.forall_mem_cons.mp hplaces
    obtain ⟨u,x,hu,hx,halike,hext⟩ := h.modifyNote hf hi
    obtain ⟨v',w',hv,hw,halike',hext'⟩ := ih halike fun j hj =>
      Nat.lt_of_lt_of_le (hrest j hj) hext.notes
    refine ⟨v',w',?_,?_,halike',hext.trans hext'⟩
    · rw [Voice.modifyNotes, hu]
      exact hv
    · rw [Voice.modifyNotes, hx]
      exact hw

/-- What the voices make of a written note is alike. -/
theorem newNote (h : Alike a b v w) (hid : b.id = a.id)
    (hreach : BothReach a b written) (velocity : Nat) (start duration : β)
    (decorations : List Decoration) (grace : Bool) (part : Option Char) :
    Note.Alike a b
      { pitch := v.soundingPitch written, velocity := v.scaleVelocity velocity, start, duration
        channel := v.channel, voice := v.id, decorations, grace, part }
      { pitch := w.soundingPitch written, velocity := w.scaleVelocity velocity, start, duration
        channel := w.channel, voice := w.id, decorations, grace, part } := by
  have hvoice : w.id = v.id := h.id_right.trans (hid.trans h.id_left.symm)
  have hleft := Voice.soundingPitch_of_reaches hreach.1
  have hright := Voice.soundingPitch_of_reaches hreach.2
  refine ⟨by rw [hvoice],?_,⟨h.channel_left,h.channel_right⟩,
    fun hmuted => if_pos (h.muted_left.trans hmuted),
    fun hmuted => if_pos (h.muted_right.trans hmuted)⟩
  dsimp only
  rw [h.soundingPitch_left, h.soundingPitch_right, hleft, hright]
  omega

end Voice.Alike

end Notes

/-! ## Placing notes that are alike -/

section Placing

variable [Beats β] {a b v w : Voice β} {part : Option Char} {places : List Nat}

theorem Voice.Alike.addGraces (h : Alike a b v w) (hid : b.id = a.id) (velocity : Int)
    (factor : β) (part : Option Char) {graces : List (Grace β)}
    (hreach : ∀ g ∈ graces, Voice.BothReach a b g.written) (time : β) :
    Alike a b (addGraces v velocity factor part graces time).1
        (addGraces w velocity factor part graces time).1 ∧
      (addGraces w velocity factor part graces time).2 =
        (addGraces v velocity factor part graces time).2 := by
  induction graces generalizing v w time with
  | nil => exact ⟨h,rfl⟩
  | cons g rest ih =>
    obtain ⟨hg,hrest⟩ := List.forall_mem_cons.mp hreach
    exact ih (h.addNote (h.newNote hid hg _ _ _ _ _ _)) hrest _

/-- The written pitches of grace notes that are placed. -/
def gracePitches (graces : List (Grace β)) : List Int :=
  if Beats.sum (graces.map (·.beats)) ≤ 0.0 then [] else graces.map (·.written)

theorem Voice.Alike.placeGraces (h : Alike a b v w) (hid : b.id = a.id) (velocity : Int)
    {graces : List (Grace β)} (hreach : ∀ p ∈ gracePitches graces, Voice.BothReach a b p)
    (start principal : β) (part : Option Char) :
    ∃ v' w' borrowed, placeGraces v velocity graces start principal part = (v',borrowed) ∧
      placeGraces w velocity graces start principal part = (w',borrowed) ∧ Alike a b v' w' ∧
      v.Extends v' := by
  unfold AbcTune.placeGraces
  unfold gracePitches at hreach
  by_cases htotal : Beats.sum (graces.map (·.beats)) ≤ 0.0
  · exact ⟨v,w,0.0,if_pos htotal,if_pos htotal,h,.refl v⟩
  · rw [if_neg htotal] at hreach
    simp only [if_neg htotal]
    generalize (if principal * mostGraceShare < Beats.sum (graces.map (·.beats)) then
      principal * mostGraceShare / Beats.sum (graces.map (·.beats)) else 1.0) = factor
    obtain ⟨v',stop,hv,-,hext⟩ := addGraces_spec v velocity factor part graces start
    obtain ⟨halike,hstop⟩ := h.addGraces hid velocity factor part
      (List.forall_mem_map.mp hreach) start
    rw [hv] at halike hstop
    exact ⟨v',_,stop - start,by rw [hv],by rw [hstop],halike,hext⟩

theorem Voice.Alike.place (h : Alike a b v w) (hid : b.id = a.id) {m : VoiceMemory β}
    (p : Placement β) (part : Option Char) (hreach : Voice.BothReach a b p.written)
    (htied : ∀ i ∈ m.tiedFrom, i < v.notes.length) :
    ∃ v' w' m' i, place v m p part = .ok (v',m',i) ∧ place w m p part = .ok (w',m',i) ∧
      Alike a b v' w' ∧ v.Extends v' ∧ i < v'.notes.length ∧ m'.lastGroup = m.lastGroup ∧
      m'.tiedFrom = m.tiedFrom := by
  obtain ⟨found,hfound,-,hrange⟩ := v.tiedNote_spec (v.soundingPitch p.written) m.tiedFrom htied
  have hfound' := (h.tiedNote hreach.1 hreach.2 htied).trans hfound
  simp only [AbcTune.place, hfound, hfound', ok_bind]
  generalize (if (Shading.ofDecorations m.velocity (p.decorations ++ m.spans)).staccato then
    p.advance / 2.0 else p.advance) = duration
  cases found with
  | none =>
    rw [h.length]
    refine ⟨_,_,_,_,rfl,rfl,h.addNote (h.newNote hid hreach _ _ _ _ _ _),v.extends_addNote _,?_,
      rfl,rfl⟩
    simp [Voice.addNote]
  | some i =>
    obtain ⟨v',w',hv,hw,halike,hext⟩ := h.modifyNote
      (fun _ _ hn => hn.retime (fun start _ => start) fun start _ => p.start + duration - start)
      (hrange i rfl)
    simp only [hv, hw, ok_bind]
    exact ⟨v',w',_,i,rfl,rfl,halike,hext,Nat.lt_of_lt_of_le (hrange i rfl) hext.notes,rfl,rfl⟩

theorem Voice.Alike.finishChord (h : Alike a b v w) (hid : b.id = a.id) (velocity : Int)
    (chord : OpenChord β) (multiplier advance : β) (part : Option Char)
    (hreach : ∀ p ∈ gracePitches chord.graces, Voice.BothReach a b p)
    (hplaces : ∀ i ∈ chord.notes, i < v.notes.length) :
    ∃ v' w', MusicState.finishChord v velocity chord multiplier advance part = .ok v' ∧
      MusicState.finishChord w velocity chord multiplier advance part = .ok w' ∧
      Alike a b v' w' ∧ v.Extends v' := by
  obtain ⟨u,x,hu,hx,halike,hext⟩ := h.modifyNotes
    (fun _ _ hn => hn.retime (fun start _ => start) fun _ duration => duration * multiplier) hplaces
  simp only [MusicState.finishChord, hu, hx, ok_bind]
  by_cases hgraces : chord.graces.isEmpty = true
  · exact ⟨u,x,if_pos hgraces,if_pos hgraces,halike,hext⟩
  · obtain ⟨v',w',borrowed,hv,hw,halike',hext'⟩ :=
      halike.placeGraces hid velocity hreach chord.start advance part
    have hplaces' : ∀ i ∈ chord.notes, i < v'.notes.length := fun i hi =>
      Nat.lt_of_lt_of_le (hplaces i hi) (hext.trans hext').notes
    simp only [if_neg hgraces, hv, hw]
    obtain ⟨y,z,hy,hz,hlast,hmore⟩ := halike'.modifyNotes
      (fun _ _ hn => hn.retime (fun start _ => start + borrowed)
        fun _ duration => MusicState.remaining duration borrowed) hplaces'
    exact ⟨y,z,hy,hz,hlast,(hext.trans hext').trans hmore⟩

end Placing
end AbcTune
