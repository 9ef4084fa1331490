import AbcTune.Proofs.Music.OneVoice
import AbcTune.Proofs.Voice.Each

/-! # Lines of several voices

Music lines of several voices may come in any order. A voice reads its own lines as if they stood
alone, so that its notes, its clock and the problems found in its lines depend on these lines only.
-/
namespace AbcTune

structure VoiceLine where
  voice : String
  number : Nat
  tokens : List Token

/-- What was found in a line: the outcome of each token, and what was left open. -/
structure LineOutcome where
  tokens : List (Option Diagnostic)
  unclosed : List Diagnostic

namespace MusicState

variable {β : Type} [Beats β] (context : MusicContext β)

/-- Handles tokens one after another and keeps what each of them comes to. -/
def handleAll (s : MusicState β) :
    List Token → Except Fault (MusicState β × List (Option Diagnostic))
  | [] => .ok (s,[])
  | token :: rest => do
    let (s,problem) ← s.handle token context
    let (s,outcomes) ← s.handleAll rest
    .ok (s,problem.map (Diagnostic.atToken token) :: outcomes)

def readVoiceLine (s : MusicState β) (line : VoiceLine) :
    Except Fault (MusicState β × LineOutcome) := do
  let s := { s with voices := s.voices.switchTo line.voice }
  let (s,outcomes) ← s.handleAll context line.tokens
  .ok (s.endLine,⟨outcomes,s.openProblems.map (Diagnostic.structural line.number)⟩)

/-- Reads lines and keeps what was found in each of them. -/
def readVoiceLines (s : MusicState β) :
    List VoiceLine → Except Fault (MusicState β × List (VoiceLine × LineOutcome))
  | [] => .ok (s,[])
  | line :: rest => do
    let (s,outcome) ← s.readVoiceLine context line
    let (s,outcomes) ← s.readVoiceLines rest
    .ok (s,(line,outcome) :: outcomes)

/-- The notes of a voice that are remembered were placed. -/
def Placed (s : MusicState β) (id : String) : Prop :=
  ∀ v, s.voices.find? id = some v → (∀ i ∈ (s.memory id).lastGroup, i < v.notes.length) ∧
    ∀ i ∈ (s.memory id).tiedFrom, i < v.notes.length

/-- A state between lines, where nothing is open. -/
structure BetweenLines (s : MusicState β) : Prop where
  active : s.voices.HasActive
  closed : s.endLine = s
  placed : ∀ id, Placed s id

variable {id other : String} {first s t : MusicState β} {v : Voice β}

theorem Tracks.handleAll (h : Tracks id first v s t) (tokens : List Token) :
    ∃ s' t' outcomes w, s.handleAll context tokens = .ok (s',outcomes) ∧
      t.handleAll context tokens = .ok (t',outcomes) ∧ Tracks id first w s' t' := by
  induction tokens generalizing s t v with
  | nil => exact ⟨s,t,[],v,rfl,rfl,h⟩
  | cons token rest ih =>
    obtain ⟨s₁,t₁,problem,v₁,hs,ht,h₁⟩ := h.handle token context
    obtain ⟨s₂,t₂,outcomes,v₂,hs',ht',h₂⟩ := ih h₁
    refine ⟨s₂,t₂,problem.map (Diagnostic.atToken token) :: outcomes,v₂,?_,?_,h₂⟩
    · rw [MusicState.handleAll, hs, ok_bind]
      simp only [hs', ok_bind]
    · rw [MusicState.handleAll, ht, ok_bind]
      simp only [ht', ok_bind]

theorem memory_solo (s : MusicState β) (id : String) : (s.solo id).memory id = s.memory id := by
  simp [memory, solo]

theorem placed_of_solo_eq (h : s.solo id = t.solo id) (ht : Placed t id) : Placed s id := by
  intro v hv
  have hmemory : s.memory id = t.memory id := by
    rw [← memory_solo s, ← memory_solo t, h]
  have hfind : (s.voices.find? id).map Voice.settle = (t.voices.find? id).map Voice.settle := by
    rw [← VoiceTable.find?_solo, ← VoiceTable.find?_solo]
    exact congrArg (fun u : MusicState β => u.voices.find? id) h
  rw [hv] at hfind
  obtain ⟨u,hu,hsettle⟩ := Option.map_eq_some_iff.mp hfind.symm
  have hnotes : u.settle.notes = v.settle.notes := congrArg Voice.notes hsettle
  change u.notes = v.notes at hnotes
  rw [hmemory, ← hnotes]
  exact ht u hu

/-- Which voice a line switches to makes no difference to what a voice sees. -/
theorem solo_switchTo (hactive : s.voices.HasActive) (hid : s.voices.contains id = true)
    (other : String) : solo { s with voices := s.voices.switchTo id } other = s.solo other := by
  simp only [solo, VoiceTable.solo_switchTo hactive hid]
  rfl

theorem BetweenLines.tracks (h : BetweenLines s) (hid : s.voices.contains id = true) :
    ∃ v, Tracks id { s with voices := s.voices.switchTo id } v
      { s with voices := s.voices.switchTo id } (s.solo id) := by
  have hsolo := solo_switchTo h.active hid
  have hplaced := placed_of_solo_eq (hsolo id) (h.placed id)
  obtain ⟨v,hv⟩ := VoiceTable.exists_find? ((VoiceTable.contains_switchTo hid id).trans hid)
  have hchord : s.chord = none := congrArg MusicState.chord h.closed.symm
  refine ⟨v,(hsolo id).symm,VoiceTable.active_switchTo s.voices id,hv,(hplaced v hv).1,
    (hplaced v hv).2,?_,rfl,fun _ => rfl,fun _ _ => rfl,fun _ _ => rfl⟩
  simp [hchord]

/-- At the end of a line the other voices see what they saw before. -/
theorem Tracks.solo_endLine (h : Tracks id first v s t) (hactive : first.voices.active = some id)
    (hne : other ≠ id) : s.endLine.solo other = first.endLine.solo other := by
  have hclock : s.voices.clock other = first.voices.clock other := by
    rw [VoiceTable.clock_of_ne (by simp [h.active, hne.symm]),
      VoiceTable.clock_of_ne (by simp [hactive, hne.symm]), VoiceTable.find?_eq_head?,
      VoiceTable.find?_eq_head?, h.named other hne]
  have hvoices : s.voices.solo other = first.voices.solo other :=
    VoiceTable.solo_congr (by rw [h.named other hne]) hclock
  have hmemory : s.endLine.memory other = first.endLine.memory other := h.memory other hne
  simp only [MusicState.solo, hmemory]
  simp only [endLine, hvoices, h.part]

/-- A voice reads a line of its own as if it stood alone, and sees nothing of any other line. -/
theorem BetweenLines.readVoiceLine (h : BetweenLines s) (line : VoiceLine)
    (hid : s.voices.contains line.voice = true) :
    ∃ s' outcome, s.readVoiceLine context line = .ok (s',outcome) ∧ BetweenLines s' ∧
      (∀ other, s'.voices.contains other = s.voices.contains other) ∧
      (s.solo line.voice).readVoiceLine context line = .ok (s'.solo line.voice,outcome) ∧
      ∀ other ≠ line.voice, s'.solo other = s.solo other := by
  obtain ⟨v,hbegin⟩ := h.tracks hid
  obtain ⟨s₁,t₁,outcomes,w,hs,ht,htracks⟩ := hbegin.handleAll context line.tokens
  have hothers : ∀ other ≠ line.voice, s₁.endLine.solo other = s.solo other := by
    intro other hne
    rw [htracks.solo_endLine (VoiceTable.active_switchTo _ _) hne,
      ← solo_switchTo h.active hid other]
    exact congrArg (fun u => solo { u with voices := s.voices.switchTo line.voice } other) h.closed
  have hcontains : ∀ other, s₁.voices.contains other = s.voices.contains other := fun other =>
    (htracks.contains other).trans (VoiceTable.contains_switchTo hid other)
  have hactive : (s.solo line.voice).voices.switchTo line.voice = (s.solo line.voice).voices :=
    VoiceTable.switchTo_of_active rfl
  refine ⟨s₁.endLine,⟨outcomes,s₁.openProblems.map (Diagnostic.structural line.number)⟩,?_,⟨?_,rfl,
    ?_⟩,hcontains,?_,hothers⟩
  · simp only [MusicState.readVoiceLine, hs, ok_bind]
  · intro active hmem
    cases htracks.active.symm.trans hmem
    exact (hcontains line.voice).trans hid
  · intro other
    by_cases hne : other = line.voice
    · subst hne
      intro u hu
      cases htracks.found.symm.trans hu
      exact ⟨htracks.lastGroup,htracks.tiedFrom⟩
    · exact placed_of_solo_eq (hothers other hne) (h.placed other)
  · simp only [MusicState.readVoiceLine, hactive]
    rw [ht, htracks.solo]
    rfl

/-- Each voice reads its own lines as if no others were there. -/
theorem BetweenLines.readVoiceLines (h : BetweenLines s) (lines : List VoiceLine)
    (hid : ∀ line ∈ lines, s.voices.contains line.voice = true) :
    ∃ s' found, s.readVoiceLines context lines = .ok (s',found) ∧
      ∀ id, (s.solo id).readVoiceLines context (lines.filter (·.voice = id)) =
        .ok (s'.solo id,found.filter (·.1.voice = id)) := by
  induction lines generalizing s with
  | nil => exact ⟨s,[],rfl,fun id => rfl⟩
  | cons line rest ih =>
    obtain ⟨s₁,outcome,hline,hbetween,hcontains,hown,hothers⟩ :=
      h.readVoiceLine context line (hid line List.mem_cons_self)
    obtain ⟨s₂,found,hrest,hsolo⟩ := ih hbetween fun l hl =>
      (hcontains l.voice).trans (hid l (List.mem_cons_of_mem _ hl))
    refine ⟨s₂,(line,outcome) :: found,?_,?_⟩
    · simp only [MusicState.readVoiceLines, hline, hrest, ok_bind]
    · intro id
      -- a line is the next one of its own voice, and all other voices see the state before it
      by_cases hvoice : line.voice = id
      · subst hvoice
        rw [List.filter_cons_of_pos (by simp), List.filter_cons_of_pos (by simp)]
        simp only [MusicState.readVoiceLines, hown, hsolo, ok_bind]
      · rw [List.filter_cons_of_neg (by simpa using hvoice),
          List.filter_cons_of_neg (by simpa using hvoice), ← hothers id (Ne.symm hvoice)]
        exact hsolo id

/-! ## Voices that are defined beforehand -/

/-- The state before any music, with voices defined one after another. -/
def withVoices (definitions : List (String × Attributes)) (part : Option Char) : MusicState β :=
  { initial with
    voices := definitions.foldl (fun t d => t.define d.1 d.2) .empty
    part }

theorem contains_foldl_define (definitions : List (String × Attributes)) (t : VoiceTable β)
    (h : other ∈ definitions.map Prod.fst ∨ t.contains other = true) :
    (definitions.foldl (fun t d => t.define d.1 d.2) t).contains other = true := by
  induction definitions generalizing t with
  | nil => simpa using h
  | cons d rest ih =>
    rw [List.foldl_cons]
    refine ih _ ?_
    rcases h with h | h
    · rcases List.mem_cons.mp h with rfl | h
      · exact Or.inr ((t.contains_define _ _ _).mpr (Or.inl rfl))
      · exact Or.inl h
    · exact Or.inr ((t.contains_define _ _ _).mpr (Or.inr h))

theorem active_foldl_define (definitions : List (String × Attributes)) (t : VoiceTable β) :
    (definitions.foldl (fun t d => t.define d.1 d.2) t).active = t.active := by
  induction definitions generalizing t with
  | nil => rfl
  | cons d rest ih => exact (ih _).trans (t.active_define d.1 d.2)

theorem betweenLines_withVoices (definitions : List (String × Attributes)) (part : Option Char) :
    BetweenLines (withVoices definitions part : MusicState β) where
  active := by
    intro id hid
    rw [withVoices, active_foldl_define] at hid
    cases hid
  closed := rfl
  placed := by
    intro id v _
    exact ⟨by simp [memory, withVoices, initial, VoiceMemory.initial],
      by simp [memory, withVoices, initial, VoiceMemory.initial]⟩

/-- What is placed in a voice and found in its lines depends on its own lines alone, whatever
lines of other voices come between them. -/
theorem readVoiceLines_interleaved (definitions : List (String × Attributes))
    (part : Option Char) (context : MusicContext β) (lines others : List VoiceLine)
    (hdefined : ∀ line ∈ lines, line.voice ∈ definitions.map Prod.fst)
    (hsame : ∀ id, lines.filter (·.voice = id) = others.filter (·.voice = id)) :
    ∃ (s t : MusicState β) (found foundOthers : List (VoiceLine × LineOutcome)),
      (withVoices definitions part).readVoiceLines context lines = .ok (s,found) ∧
        (withVoices definitions part).readVoiceLines context others = .ok (t,foundOthers) ∧
        ∀ id, (s.voices.close.find? (·.id = id)).map (fun v => (v.notes,v.savedTime)) =
            (t.voices.close.find? (·.id = id)).map (fun v => (v.notes,v.savedTime)) ∧
          found.filter (·.1.voice = id) = foundOthers.filter (·.1.voice = id) := by
  have hother : ∀ line ∈ others, line.voice ∈ definitions.map Prod.fst := by
    intro line hline
    refine hdefined line ?_
    have hfilter : line ∈ others.filter (·.voice = line.voice) := by simp [hline]
    rw [← hsame] at hfilter
    exact (List.mem_filter.mp hfilter).1
  have hcontains : ∀ id ∈ definitions.map Prod.fst,
      (withVoices definitions part : MusicState β).voices.contains id = true :=
    fun id hid => contains_foldl_define definitions _ (Or.inl hid)
  have hbetween := betweenLines_withVoices (β := β) definitions part
  obtain ⟨s,found,hs,hsolo⟩ := hbetween.readVoiceLines context lines
    fun line hline => hcontains _ (hdefined line hline)
  obtain ⟨t,foundOthers,ht,hsolo'⟩ := hbetween.readVoiceLines context others
    fun line hline => hcontains _ (hother line hline)
  refine ⟨s,t,found,foundOthers,hs,ht,fun id => ?_⟩
  have hsame' := hsolo id
  rw [hsame id, hsolo' id] at hsame'
  obtain ⟨hstate,hfound⟩ := Prod.mk.inj (Except.ok.inj hsame')
  have hvoices : t.voices.solo id = s.voices.solo id := congrArg MusicState.voices hstate
  rw [VoiceTable.find?_close, VoiceTable.find?_close, hvoices]
  exact ⟨rfl,hfound.symm⟩

/-- A tie into the next line, and an open chord of another voice before or after it. -/
theorem readVoiceLines_interleaved_tie :
    ∃ (first second chord : VoiceLine) (s t : MusicState Rat)
      (found foundOthers : List (VoiceLine × LineOutcome)),
      first.tokens.map (·.kind) = [.note, .tie] ∧ chord.tokens.map (·.kind) = [.chordStart, .note] ∧
        (withVoices [("1",.none),("2",.none)] none).readVoiceLines .initial
          [first,chord,second] = .ok (s,found) ∧
        (withVoices [("1",.none),("2",.none)] none).readVoiceLines .initial
          [first,second,chord] = .ok (t,foundOthers) ∧
        ∀ id, (s.voices.close.find? (·.id = id)).map (fun v => (v.notes,v.savedTime)) =
            (t.voices.close.find? (·.id = id)).map (fun v => (v.notes,v.savedTime)) ∧
          found.filter (·.1.voice = id) = foundOthers.filter (·.1.voice = id) := by
  let token (kind : TokenKind) (text : Text) : Token := ⟨kind,text,1,1,[]⟩
  let first : VoiceLine := ⟨"1",1,[token .note ['C'],token .tie ['-']]⟩
  let second : VoiceLine := ⟨"1",2,[token .note ['C']]⟩
  let chord : VoiceLine := ⟨"2",3,[token .chordStart ['['],token .note ['E']]⟩
  have hdefined : ∀ line ∈ [first,chord,second],
      line.voice ∈ [("1",Attributes.none),("2",Attributes.none)].map Prod.fst := by
    simp [first, second, chord]
  have hsame : ∀ id, [first,chord,second].filter (·.voice = id) =
      [first,second,chord].filter (·.voice = id) := by
    intro id
    by_cases hone : "1" = id
    · subst hone
      rfl
    · simp [List.filter_cons, first, second, chord, hone]
  obtain ⟨s,t,found,foundOthers,h⟩ := readVoiceLines_interleaved (β := Rat)
    [("1",.none),("2",.none)] none .initial [first,chord,second] [first,second,chord] hdefined hsame
  exact ⟨first,second,chord,s,t,found,foundOthers,rfl,rfl,h⟩

end MusicState
end AbcTune
