import Mathlib.Data.List.Forall2
import AbcTune.Proofs.Music.Moves
import AbcTune.Proofs.Music.Settings

/-! # One piece of music under two settings

A run that stays with one voice takes the same course under all settings of the voice that limit
no pitch to the range: the notes come at the same times, and the settings decide their pitches,
channels and velocities alone.
-/
namespace AbcTune

variable {β : Type} [Beats β]

/-- A move that leaves a tune with one voice, whose settings stay as they are. -/
def MusicMove.StaysWith (id : String) : MusicMove β → Prop
  | .voices (.define _ _) => False
  | .voices (.switchTo other) => other = id
  | _ => True

/-- Two voices without notes yet that differ in their settings alone. -/
structure Voice.DifferInSettings (v w : Voice β) : Prop where
  id : w.id = v.id
  savedTime : w.savedTime = v.savedTime
  status : w.status = v.status
  left : v.notes = []
  right : w.notes = []

namespace MusicState

/-- The state before the music of a tune whose only voice is `v`. -/
def alone (v : Voice β) (next : Nat) : MusicState β :=
  { initial with voices := { VoiceTable.empty with voices := [v], nextChannel := next } }

def moveSounds (s : MusicState β) : MusicMove β → List Int
  | .token token context => s.sounds token context
  | _ => []

/-- The written pitches that sound along a run. -/
def runSounds (s : MusicState β) : List (MusicMove β) → List Int
  | [] => []
  | m :: rest => s.moveSounds m ++ match s.move m with
    | .ok t => t.runSounds rest
    | .error _ => []

variable {a b v w : Voice β} {next : Nat} {s t : MusicState β}

namespace Mirrors

variable (h : Mirrors a b next v w s t)

include h

theorem latestTime_eq : t.voices.latestTime = s.voices.latestTime := by
  have htime : w.savedTime = v.savedTime := (congrArg Voice.savedTime h.alike.right :)
  simp only [VoiceTable.latestTime, h.sole, h.sole_right, h.active_eq, h.cursor_eq, h.id_eq,
    List.filter_cons, List.filter_nil]
  split <;> simp [htime]

theorem syncAll :
    ∃ v' w', Mirrors a b next v' w' { s with voices := s.voices.syncAll }
      { t with voices := t.voices.syncAll } := by
  have hlatest := h.latestTime_eq
  obtain ⟨hleft,hright,hlength,hnotes⟩ := h.alike
  have hsole := h.sole_right
  refine ⟨{ v with savedTime := s.voices.latestTime },{ w with savedTime := s.voices.latestTime },
    ?_,?_,h.active,h.id,⟨?_,?_,hlength,hnotes⟩,h.lastGroup,h.tiedFrom,h.chord⟩
  · simp only [VoiceTable.syncAll, hlatest, hsole, List.map_cons, List.map_nil]
    rw [h.eq]
    rfl
  · simp [VoiceTable.syncAll, h.sole]
  · exact congrArg (fun u => { u with savedTime := s.voices.latestTime }) hleft
  · exact congrArg (fun u => { u with savedTime := s.voices.latestTime }) hright

theorem apply {operation : VoiceTable.Operation β}
    (hstays : (MusicMove.voices operation).StaysWith a.id) :
    ∃ v' w', Mirrors a b next v' w' { s with voices := s.voices.apply operation }
      { t with voices := t.voices.apply operation } := by
  cases operation with
  | define other attributes => exact False.elim hstays
  | switchTo id =>
    obtain rfl : id = v.id := hstays.trans h.alike.id_left.symm
    obtain ⟨v',w',-,-,hactive⟩ := h.ensureActive
    rw [VoiceTable.ensureActive, VoiceTable.ensureActive, h.noteVoice_left, h.noteVoice_right]
      at hactive
    exact ⟨v',w',hactive⟩
  | ensureActive =>
    obtain ⟨v',w',-,-,hactive⟩ := h.ensureActive
    exact ⟨v',w',hactive⟩
  | ensureSettings =>
    refine ⟨v,w,?_⟩
    simp only [VoiceTable.apply, VoiceTable.ensureSettings, h.sole, h.sole_right, List.isEmpty_cons,
      Bool.not_false, Bool.or_true, if_true]
    exact h
  | advance beats => exact ⟨v,w,h.advance beats⟩
  | syncAll => exact h.syncAll

theorem moveSounds_eq (m : MusicMove β) : t.moveSounds m = s.moveSounds m := by
  cases m with
  | token token context => exact h.sounds_eq token context
  | endLine | startPart | voices => rfl

/-- A move that limits no pitch in either voice leads to states that mirror each other again. -/
theorem move {m : MusicMove β} (hstays : m.StaysWith a.id)
    (hreach : ∀ p ∈ s.moveSounds m, a.BothReach b p) :
    ∃ s' t' v' w', s.move m = .ok s' ∧ t.move m = .ok t' ∧ Mirrors a b next v' w' s' t' := by
  cases m with
  | token token context =>
    obtain ⟨s',t',problem,v',w',hs,ht,hafter⟩ := h.handle token context hreach
    exact ⟨s',t',v',w',congrArg (Except.map Prod.fst) hs,congrArg (Except.map Prod.fst) ht,hafter⟩
  | endLine =>
    exact ⟨_,_,v,w,rfl,rfl,
      (((h.setTuplets []).setGraceGroup none).setChord none (by simp)).setDecorations []⟩
  | startPart label => exact ⟨_,_,v,w,rfl,rfl,h.setPart (some label)⟩
  | voices operation =>
    obtain ⟨v',w',hafter⟩ := h.apply hstays
    exact ⟨_,_,v',w',rfl,rfl,hafter⟩

theorem notes_alike :
    List.Forall₂ (Note.Alike a b) (s.voices.notesOf v.id) (t.voices.notesOf v.id) := by
  have hleft : s.voices.notesOf v.id = v.notes := by simp [VoiceTable.notesOf, h.find?_left]
  have hright : t.voices.notesOf v.id = w.notes := by simp [VoiceTable.notesOf, h.find?_right]
  rw [hleft, hright]
  refine List.forall₂_iff_get.mpr ⟨h.alike.length.symm,fun i hi hi' => ?_⟩
  exact h.alike.notes i _ (List.getElem?_eq_getElem hi) _ (List.getElem?_eq_getElem hi')

end Mirrors

theorem Mirrors.run (h : Mirrors a b next v w s t) {moves : List (MusicMove β)}
    (hstays : ∀ m ∈ moves, m.StaysWith a.id) (hleft : ∀ p ∈ s.runSounds moves, a.Reaches p)
    (hright : ∀ p ∈ t.runSounds moves, b.Reaches p) :
    ∃ s' t' v' w', s.run moves = .ok s' ∧ t.run moves = .ok t' ∧ Mirrors a b next v' w' s' t' := by
  induction moves generalizing v w s t with
  | nil => exact ⟨s,t,v,w,rfl,rfl,h⟩
  | cons m rest ih =>
    obtain ⟨hm,hrest⟩ := List.forall_mem_cons.mp hstays
    rw [runSounds, List.forall_mem_append] at hleft hright
    obtain ⟨x,y,v',w',hx,hy,hafter⟩ := h.move hm fun p hp =>
      ⟨hleft.1 p hp,hright.1 p (h.moveSounds_eq m ▸ hp)⟩
    rw [hx] at hleft
    rw [hy] at hright
    simp only [MusicState.run, hx, hy, ok_bind]
    exact ih hafter hrest hleft.2 hright.2

theorem mirrors_alone (h : v.DifferInSettings w) (left right : Nat) :
    Mirrors v w right v w (alone v left) (alone w right) where
  eq := rfl
  sole := rfl
  active _ hid := by cases hid
  id := h.id
  alike := by
    refine ⟨rfl,by rw [← h.savedTime, ← h.status],by rw [h.left, h.right],fun i n hn => ?_⟩
    simp [h.left] at hn
  lastGroup _ hi := absurd hi List.not_mem_nil
  tiedFrom _ hi := absurd hi List.not_mem_nil
  chord _ hc := by cases hc

/-- The same music read in a tune's only voice under two settings, where no pitch that sounds is
limited to the range under either of them: both runs succeed and come to the same beat, and the
notes of one are those of the other but for their pitches, which differ by what the settings add,
and their channels and velocities, which are those of the settings. -/
theorem run_settings {moves : List (MusicMove β)} {left right : Nat}
    (hsettings : v.DifferInSettings w) (hstays : ∀ m ∈ moves, m.StaysWith v.id)
    (hleft : ∀ p ∈ (alone v left).runSounds moves, v.Reaches p)
    (hright : ∀ p ∈ (alone w right).runSounds moves, w.Reaches p) :
    ∃ s t, (alone v left).run moves = .ok s ∧ (alone w right).run moves = .ok t ∧
      t.voices.cursor = s.voices.cursor ∧
      List.Forall₂ (Note.Alike v w) (s.voices.notesOf v.id) (t.voices.notesOf v.id) := by
  obtain ⟨s,t,v',w',hs,ht,h⟩ := (mirrors_alone hsettings left right).run hstays hleft hright
  have hid : v'.id = v.id := h.alike.id_left
  exact ⟨s,t,hs,ht,h.cursor_eq,hid ▸ h.notes_alike⟩

/-- A tie, a chord with grace notes, and broken rhythm, in a plain voice and in a silent one that
sounds ten semitones lower. -/
theorem run_settings_muted :
    ∃ (moves : List (MusicMove Rat)) (v w : Voice Rat) (s t : MusicState Rat),
      v.shift = 0 ∧ w.shift = -10 ∧ w.muted = true ∧
      (alone v 1).run moves = .ok s ∧ (alone w 1).run moves = .ok t ∧
      (s.voices.notesOf "1").map (·.pitch) = [60,60,64,62,65] ∧
      (t.voices.notesOf "1").map (·.pitch) = [50,50,54,52,55] ∧
      (s.voices.notesOf "1").map (·.duration) = [1,5/4,5/4,1/4,1/4] ∧
      List.Forall₂ (Note.Alike v w) (s.voices.notesOf "1") (t.voices.notesOf "1") := by
  let music (kind : TokenKind) (text : String) : MusicMove Rat :=
    .token ⟨kind,text.toList,1,1,[]⟩ .initial
  let moves : List (MusicMove Rat) := [music .note "C",music .tie "-",music .note "C",
    music .graceStart "\x7b",music .note "D",music .graceEnd "\x7d",music .chordStart "[",
    music .note "C",music .note "E",music .chordEnd "]2",music .brokenRhythm ">",music .note "F"]
  let v : Voice Rat := { Voice.new "1" with status := .defined }
  let w : Voice Rat :=
    { v with transpose := 2, octave := -1, muted := true, channel := 3, program := some 40 }
  have hleft : ∀ p ∈ (alone v 1).runSounds moves, v.Reaches p := by decide +kernel
  have hright : ∀ p ∈ (alone w 1).runSounds moves, w.Reaches p := by decide +kernel
  have hstays : ∀ m ∈ moves, m.StaysWith v.id := by simp [moves, music, MusicMove.StaysWith]
  have hsettings : v.DifferInSettings w := ⟨rfl,rfl,rfl,rfl,rfl⟩
  obtain ⟨s,t,hs,ht,-,halike⟩ := run_settings hsettings hstays hleft hright
  have hpitches : ((alone v 1).run moves).toOption.map (fun s =>
      ((s.voices.notesOf "1").map (·.pitch),(s.voices.notesOf "1").map (·.duration))) =
      some ([60,60,64,62,65],[1,5/4,5/4,1/4,1/4]) := by decide +kernel
  have hshifted : ((alone w 1).run moves).toOption.map (fun t =>
      (t.voices.notesOf "1").map (·.pitch)) = some [50,50,54,52,55] := by decide +kernel
  rw [hs] at hpitches
  rw [ht] at hshifted
  obtain ⟨hpitch,hduration⟩ := Prod.mk.inj (Option.some.inj hpitches)
  exact ⟨moves,v,w,s,t,rfl,rfl,rfl,hs,ht,hpitch,Option.some.inj hshifted,hduration,halike⟩

end MusicState
end AbcTune
