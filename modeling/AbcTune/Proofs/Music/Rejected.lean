import AbcTune.Proofs.Music.Passage

/-! # Music that is rejected

A token is read before anything is changed, so a rejected one changes nothing: at most the voice
that its decoration would have ended in has become the active one, at the time where it stood. The
end of a chord is the exception. It takes the chord first, so that a length that cannot be read
drops it: its notes stay, but no time passes for them.
-/
namespace AbcTune.MusicState

variable {β : Type} [Beats β] {s t : MusicState β}

/-- Nothing that has been written, opened or remembered differs between two states, and no voice
has moved. Which voice is active is left open. -/
structure Untouched (s t : MusicState β) : Prop where
  notes : ∀ id, t.voices.notesOf id = s.voices.notesOf id
  clock : ∀ id, t.voices.clock id = s.voices.clock id
  memory : ∀ id, t.memory id = s.memory id
  tuplets : t.tuplets = s.tuplets
  graceGroup : t.graceGroup = s.graceGroup
  chord : t.chord = s.chord
  decorations : t.decorations = s.decorations
  part : t.part = s.part

theorem Untouched.refl (s : MusicState β) : Untouched s s where
  notes _ := rfl
  clock _ := rfl
  memory _ := rfl
  tuplets := rfl
  graceGroup := rfl
  chord := rfl
  decorations := rfl
  part := rfl

/-- A voice becomes active at the time where it stood, even in a table that does not have the
voice that it calls active. -/
theorem clock_ensureActive_any (u : VoiceTable β) (id : String) :
    u.ensureActive.clock id = u.clock id := by
  cases hactive : u.active with
  | none =>
    have hvacuous : u.HasActive := by
      intro other hother
      rw [hactive] at hother
      cases hother
    exact clock_ensureActive hvacuous id
  | some other => rw [VoiceTable.ensureActive_of_active hactive]

theorem untouched_ensureActive (s : MusicState β) :
    Untouched s { s with voices := s.voices.ensureActive } :=
  { Untouched.refl s with
    notes := VoiceTable.notesOf_ensureActive s.voices
    clock := clock_ensureActive_any s.voices }

/-! ## What a rejection leaves -/

section Rejections

variable {β : Type} {t : MusicState β} {P Q : MusicState β → Prop}

/-- If a token is rejected, the state behind it satisfies `P`. -/
def Rejects (P : MusicState β → Prop) (r : Except Fault (Handled β)) : Prop :=
  ∀ t problem, r = .ok (t,some problem) → P t

theorem rejects_accept (t : MusicState β) : Rejects P t.accept := nofun

theorem rejects_reject (t : MusicState β) (problem : MusicProblem) :
    Rejects (· = t) (t.reject problem) := by
  rintro _ _ ⟨⟩
  rfl

theorem rejects_bind {α : Type} {x : Except Fault α} {f : α → Except Fault (Handled β)}
    (h : ∀ a, Rejects P (f a)) : Rejects P (x >>= f) := by
  intro t problem hok
  obtain ⟨a,-,hok⟩ := exists_of_bind_ok hok
  exact h a t problem hok

theorem Rejects.imp {r : Except Fault (Handled β)} (h : Rejects P r) (hPQ : ∀ t, P t → Q t) :
    Rejects Q r := fun t problem hok => hPQ t (h t problem hok)

end Rejections

theorem rejects_note (s : MusicState β) (text : Text) (context : MusicContext β) :
    Rejects (· = s) (s.note text context) := by
  unfold MusicState.note
  split
  · exact rejects_reject _ _
  · dsimp only
    split
    · exact rejects_accept _
    · split
      · exact rejects_accept _
      · exact rejects_bind fun _ => rejects_accept _
      · exact rejects_bind fun _ => rejects_accept _

theorem rejects_rest (s : MusicState β) (text : Text) (context : MusicContext β) :
    Rejects (· = s) (s.rest text context) := by
  unfold MusicState.rest
  split
  · exact rejects_reject _ _
  · split
    · exact rejects_reject _ _
    · exact rejects_accept _

theorem rejects_multiRest (s : MusicState β) (text : Text) (context : MusicContext β) :
    Rejects (· = s) (s.multiRest text context) := by
  unfold MusicState.multiRest
  split
  · exact rejects_reject _ _
  · exact rejects_accept _

theorem rejects_barLine (s : MusicState β) : Rejects (· = s) s.barLine := by
  unfold MusicState.barLine
  split <;> exact rejects_accept _

omit [Beats β] in
theorem rejects_openGrace (s : MusicState β) : Rejects (· = s) s.openGrace := by
  unfold MusicState.openGrace
  split
  · exact rejects_reject _ _
  · exact rejects_accept _

theorem rejects_closeGrace (s : MusicState β) : Rejects (· = s) s.closeGrace := by
  unfold MusicState.closeGrace
  split
  · exact rejects_reject _ _
  · exact rejects_accept _

omit [Beats β] in
theorem rejects_openTuplet (s : MusicState β) (text : Text) (context : MusicContext β) :
    Rejects (· = s) (s.openTuplet text context) := by
  unfold MusicState.openTuplet
  split
  · exact rejects_reject _ _
  · split <;> exact rejects_accept _

theorem rejects_openChord (s : MusicState β) : Rejects (· = s) s.openChord := by
  unfold MusicState.openChord
  split
  · exact rejects_reject _ _
  · split
    · exact rejects_reject _ _
    · exact rejects_accept _

/-- The end of a chord drops the chord before its length is read. -/
theorem rejects_closeChord (s : MusicState β) (text : Text) :
    Rejects (· = { s with chord := none }) (s.closeChord text) := by
  unfold MusicState.closeChord
  split
  · next hchord =>
    have hsame : s = { s with chord := none } := by rw [← hchord]
    exact hsame ▸ rejects_reject s _
  · dsimp only
    split
    · exact rejects_reject _ _
    · split
      · exact rejects_bind fun _ => rejects_accept _
      · exact rejects_bind fun _ => rejects_bind fun _ => rejects_accept _

theorem rejects_brokenRhythm (s : MusicState β) (text : Text) :
    Rejects (· = s) (s.brokenRhythm text) := by
  unfold MusicState.brokenRhythm
  split
  · exact rejects_reject _ _
  · dsimp only
    split
    · exact rejects_reject _ _
    · split
      · exact rejects_bind fun _ => rejects_accept _
      · exact rejects_bind fun _ => rejects_bind fun _ => rejects_accept _

/-- A decoration that ends what is not open has made its voice the active one by then. -/
theorem rejects_namedDecoration (s : MusicState β) (text : Text) :
    Rejects (· = { s with voices := s.voices.ensureActive }) (s.namedDecoration text) := by
  unfold MusicState.namedDecoration
  dsimp only
  split
  · exact rejects_accept _
  · split
    · exact rejects_accept _
    · exact rejects_reject _ _
  · exact rejects_accept _

theorem Rejects.untouched {r : Except Fault (Handled β)} (h : Rejects (· = s) r) :
    Rejects (Untouched s) r := by
  refine h.imp ?_
  rintro _ rfl
  exact .refl _

/-- A token other than the end of a chord leaves everything as it is where it is rejected. -/
theorem rejects_handle {token : Token} (hkind : token.kind ≠ .chordEnd)
    (context : MusicContext β) : Rejects (Untouched s) (s.handle token context) := by
  obtain ⟨kind,text,line,column,properties⟩ := token
  cases kind with
  | chordEnd => exact absurd rfl hkind
  | note => exact (rejects_note s text context).untouched
  | rest => exact (rejects_rest s text context).untouched
  | multiRest => exact (rejects_multiRest s text context).untouched
  | bar | repeatStart | repeatEnd | repeatBoth | ending => exact (rejects_barLine s).untouched
  | chordStart => exact (rejects_openChord s).untouched
  | graceStart => exact (rejects_openGrace s).untouched
  | graceEnd => exact (rejects_closeGrace s).untouched
  | tuplet => exact (rejects_openTuplet s text context).untouched
  | tie => exact rejects_accept _
  | brokenRhythm => exact (rejects_brokenRhythm s text).untouched
  | decoration => exact rejects_accept _
  | extendedDecoration =>
    refine (rejects_namedDecoration s text).imp ?_
    rintro _ rfl
    exact untouched_ensureActive s
  | unknown => exact (rejects_reject s _).untouched
  | _ => exact rejects_accept _

/-- A rejected token leaves the music untouched, unless it is to end an open chord: that one drops
the chord, with the graces and the decorations that wait in it, and leaves the rest as it is. -/
theorem handle_rejected {token : Token} {context : MusicContext β} {problem : MusicProblem}
    (h : s.handle token context = .ok (t,some problem)) :
    (Untouched s t ↔ ¬ (token.kind = .chordEnd ∧ s.chord.isSome)) ∧
    (token.kind = .chordEnd → t = { s with chord := none }) := by
  by_cases hkind : token.kind = .chordEnd
  · have hclose : s.closeChord token.text = .ok (t,some problem) := by
      rw [← h, MusicState.handle, hkind]
    obtain rfl := rejects_closeChord s token.text t problem hclose
    refine ⟨?_,fun _ => rfl⟩
    cases hchord : s.chord with
    | none =>
      have hsame : { s with chord := none } = s := by rw [← hchord]
      simpa [hsame] using Untouched.refl s
    | some chord =>
      simp only [hkind, Option.isSome_some, and_self, not_true_eq_false, iff_false]
      intro huntouched
      have hdropped : none = s.chord := huntouched.chord
      rw [hchord] at hdropped
      cases hdropped
  · have huntouched : Untouched s t := rejects_handle hkind context t problem h
    exact ⟨iff_of_true huntouched fun hchord => hkind hchord.1,fun hchord => absurd hchord hkind⟩

/-- A rest inside a chord, which goes on behind it. -/
theorem handle_rejected_rest :
    ∃ (moves : List (MusicMove Rat)) (s t : MusicState Rat), initial.run moves = .ok s ∧
      s.handle ⟨.rest,"z".toList,1,1,[]⟩ .initial = .ok (t,some .restInside) ∧
      s.chord.map (·.notes) = some [0] ∧ Untouched s t := by
  let music (kind : TokenKind) (text : String) : MusicMove Rat :=
    .token ⟨kind,text.toList,1,1,[]⟩ .initial
  let moves : List (MusicMove Rat) := [music .chordStart "[",music .note "C"]
  have hrun : ((initial.run moves).toOption.map fun s => s.chord.map (·.notes)) =
      some (some [0]) := by decide +kernel
  obtain ⟨s,hs,hnotes⟩ := exists_of_toOption_map hrun
  have hopen : s.chord.isSome = true := by
    rw [← Option.isSome_map (f := (·.notes)), hnotes]
    rfl
  have hrest : s.handle ⟨.rest,"z".toList,1,1,[]⟩ .initial = .ok (s,some .restInside) := by
    simp [MusicState.handle, MusicState.rest, reject, hopen]
  exact ⟨moves,s,s,hs,hrest,hnotes,(handle_rejected hrest).1.mpr (fun h => by cases h.1)⟩

/-- A chord that is closed with the length 0 is gone, though its end is rejected. -/
theorem handle_rejected_chordLength :
    ∃ (moves : List (MusicMove Rat)) (s t : MusicState Rat), initial.run moves = .ok s ∧
      s.handle ⟨.chordEnd,"]0".toList,1,1,[]⟩ .initial =
        .ok (t,some (.badChordLength "]0".toList)) ∧
      s.chord.map (·.notes) = some [0] ∧ t.chord.isNone ∧ ¬ Untouched s t := by
  let music (kind : TokenKind) (text : String) : MusicMove Rat :=
    .token ⟨kind,text.toList,1,1,[]⟩ .initial
  let moves : List (MusicMove Rat) := [music .chordStart "[",music .note "C"]
  have hrun : ((initial.run moves).toOption.map fun s => s.chord.map (·.notes)) =
      some (some [0]) := by decide +kernel
  obtain ⟨s,hs,hnotes⟩ := exists_of_toOption_map hrun
  obtain ⟨chord,hchord,-⟩ := Option.map_eq_some_iff.mp hnotes
  have hlength : readLength? (β := Rat) ("]0".toList.drop 1) = none := by decide +kernel
  refine ⟨moves,s,{ s with chord := none },hs,?_,hnotes,rfl,fun huntouched => ?_⟩
  · simp only [MusicState.handle, MusicState.closeChord, hchord, hlength]
    rfl
  · have hdropped : none = s.chord := huntouched.chord
    rw [hchord] at hdropped
    cases hdropped

end AbcTune.MusicState
