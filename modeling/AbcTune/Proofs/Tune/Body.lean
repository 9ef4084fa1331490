import AbcTune.Proofs.Tune.Assembly
import AbcTune.Proofs.Tune.Header

/-! # Reading a line of plain music

Behind a header a line of plain music is read in one voice, and the tune that is completed there
has the notes of this voice.
-/
namespace AbcTune

open MusicState (Idle Reads Readable)

/-! ## The start of the music -/

/-- The first voice is taken up, or one that is created. -/
theorem VoiceTable.Fresh.taken {t : VoiceTable Float} (h : t.Fresh) :
    ∃ v, t.ensureActive.find? t.noteVoice = some v ∧ (∀ w ∈ t.ensureActive.voices, w.notes = []) ∧
      t.ensureActive.order.Nodup ∧ t.ensureActive.cursor = 0.0 := by
  have hensure := h.ensure t.noteVoice .none
  have htaken : t.ensureActive = (t.ensure t.noteVoice .none).activate t.noteVoice := by
    rw [VoiceTable.ensureActive, VoiceTable.switchTo, VoiceTable.suspend_of_none h.active, h.active]
    exact if_neg (by simp)
  have hcontains : (t.ensure t.noteVoice .none).contains t.noteVoice = true :=
    (t.contains_ensure _ _ _).mpr (.inl rfl)
  obtain ⟨w,hw⟩ := VoiceTable.exists_find? hcontains
  let take (v : Voice Float) : Voice Float := { v with status := .active }
  have hfind : ((t.ensure t.noteVoice .none).modify t.noteVoice take).find? t.noteVoice =
      some (take w) := by
    rw [VoiceTable.find?_modify take fun _ hv => hv, hw]
    rfl
  refine ⟨take w,?_,?_,?_,?_⟩
  · rw [htaken]
    exact hfind
  · rw [htaken]
    intro u hu
    obtain ⟨v,hv,rfl⟩ := List.mem_map.mp hu
    split
    · exact (hensure.silent v hv).1
    · exact (hensure.silent v hv).1
  · rw [htaken]
    exact (VoiceTable.order_modify take fun _ hv => hv).symm ▸ hensure.order
  · rw [htaken, VoiceTable.activate, hw]
    exact (hensure.silent w (List.mem_of_find?_eq_some hw)).2

theorem inTime_nil : InTime [] 0.0 :=
  ⟨by decide,fun _ hn => absurd hn List.not_mem_nil,List.Pairwise.nil⟩

namespace TuneReading

variable {r r' : TuneReading} {v : Voice Float} {inForce : Accidentals}

/-- At the start of the music nothing is open and no note was placed. -/
theorem Opened.idle (h : r.Opened) :
    ∃ v, Idle r.music v [] ∧ v.notes = [] ∧ InTime v.notes r.music.voices.ensureActive.cursor := by
  obtain ⟨v,hv,hsilent,hids,hcursor⟩ := h.fields.fresh.taken
  have hnotes : v.notes = [] := hsilent v (List.mem_of_find?_eq_some hv)
  have hmemory : ∀ id, r.music.memory id = .initial := by
    intro id
    rw [h.music]
    rfl
  refine ⟨v,⟨?_,?_,?_,?_,?_,?_,?_,hv,fun w hw _ => hsilent w hw,hids,fun _ => ?_⟩,hnotes,?_⟩
  · rw [h.music]; rfl
  · rw [h.music]; rfl
  · rw [h.music]; rfl
  · rw [hmemory]; rfl
  · rw [hmemory]; rfl
  · rw [hmemory]; rfl
  · rw [hmemory]; rfl
  · exact ⟨rfl,hnotes,fun w hw => (h.fields.fresh.silent w hw).1⟩
  · rw [hnotes]
    exact hcursor ▸ inTime_nil

/-! ## One line -/

/-- Kinds of tokens that are music within their line. -/
def isInnerKind : TokenKind → Bool
  | .field _ | .directive | .comment | .inlineField _ | .continuation => false
  | _ => true

theorem isLineKind_of_isInnerKind {kind : TokenKind} (h : isInnerKind kind = true) :
    Token.isLineKind kind = false := by
  cases kind <;> first | rfl | cases h

theorem isInnerKind_of_isPlainKind {kind : TokenKind} (h : Token.isPlainKind kind = true) :
    isInnerKind kind = true := by
  cases kind <;> first | rfl | cases h

theorem isInnerKind_of_readable {p : TokenKind × Text} (h : Readable p) :
    isInnerKind p.1 = true := by
  obtain ⟨kind,text⟩ := p
  cases kind <;> first | rfl | exact h.elim

/-- A line of music is read token by token, and what it leaves open is reported. -/
theorem readLine_eq (hstage : r.settings.stage = .body) {text : Text} {line : Nat}
    (hinner : ∀ token ∈ Token.tokenize text line, isInnerKind token.kind = true) :
    r.readLine text line =
      if ∀ token ∈ Token.tokenize text line, token.kind = .space then .ok r
      else (r.music.handleAll r.settings.context (Token.tokenize text line)).map fun p =>
        ({ r.beginMusic with music := p.1 }.report (p.2.flatMap Option.toList)).endLine line := by
  unfold readLine
  generalize Token.tokenize text line = tokens at hinner
  cases tokens with
  | nil => exact (if_pos (by simp)).symm
  | cons first rest =>
    have hfirst := hinner first List.mem_cons_self
    have hcontinued : isContinued (first :: rest) = false := by
      unfold isContinued
      split
      · next token htoken =>
        have htoken := List.mem_reverse.mp (List.mem_of_find?_eq_some htoken)
        have hkind := hinner token htoken
        rw [Bool.eq_false_iff]
        intro hcontinuation
        rw [eq_of_beq hcontinuation] at hkind
        cases hkind
      · rfl
    have hnoField : ∀ token ∈ first :: rest, ∀ name, token.kind ≠ .inlineField name := by
      intro token htoken name hname
      have hkind := hinner token htoken
      rw [hname] at hkind
      cases hkind
    have htokens := readTokens_eq r.beginMusic hnoField
    have hspaces : (first :: rest).all (·.kind == .space) = true ↔
        ∀ token ∈ first :: rest, token.kind = .space := by
      simp
    rw [readLineTokens_music _ _ _ (isLineKind_of_isInnerKind hfirst)]
    by_cases hall : ∀ token ∈ first :: rest, token.kind = .space
    · rw [if_pos (hspaces.mpr hall), if_pos hall]
    · rw [if_neg (mt hspaces.mp hall), if_neg hall, hstage, if_neg (by decide), readMusic, htokens]
      change (r.music.handleAll r.settings.context (first :: rest)).map _ >>= _ = _
      cases r.music.handleAll r.settings.context (first :: rest) with
      | error e => rfl
      | ok p =>
        refine congrArg Except.ok ?_
        dsimp only
        rw [hcontinued]
        rfl

/-- Nothing is open where a line ends. -/
theorem endLine_of_idle (h : Idle r.music v inForce) (line : Nat) :
    r.endLine line = { r with music := r.music.endLine } ∧ Idle r.music.endLine v inForce := by
  have hproblems : r.music.openProblems = [] := by
    unfold MusicState.openProblems
    rw [h.tuplets, h.graceGroup, h.chord]
    rfl
  refine ⟨?_,⟨rfl,rfl,rfl,h.graces,h.tiedFrom,h.brokenNext,h.accidentals,h.voice,h.others,h.ids,
    h.silent⟩⟩
  unfold endLine
  rw [hproblems]
  simp [report]

theorem forall_signs {P : TokenKind × Text → Prop} (hspace : ∀ text, P (.space,text))
    (tokens : List Token) :
    (∀ p ∈ Token.signs tokens, P p) ↔ ∀ token ∈ tokens, P (token.kind,token.text) := by
  unfold Token.signs
  rw [List.forall_mem_map]
  constructor
  · intro h token htoken
    by_cases hkind : token.kind = .space
    · rw [hkind]
      exact hspace token.text
    · exact h token (List.mem_filter.mpr ⟨htoken,bne_iff_ne.mpr hkind⟩)
  · intro h token htoken
    exact h token (List.mem_filter.mp htoken).1

theorem filterMap_signs (tokens : List Token) :
    (Token.signs tokens).filterMap Item.read? =
      tokens.filterMap fun token => Item.read? (token.kind,token.text) := by
  unfold Token.signs
  rw [List.filterMap_map, List.filterMap_filter]
  apply List.filterMap_congr
  intro token _
  by_cases hkind : token.kind = .space
  · rw [hkind]
    rfl
  · rw [if_pos (bne_iff_ne.mpr hkind)]
    rfl

/-- What reading a line of plain music comes to. -/
structure ReadsLine (r : TuneReading) (v : Voice Float) (items : List Item) (r' : TuneReading)
    (notes : List (Note Float)) : Prop where
  diagnostics : r'.diagnostics = r.diagnostics
  sections : r'.sections = r.sections
  heading : r'.settings.heading = r.settings.heading
  reads : Reads r'.music v [] r.settings.context.key items notes

/-- A line that can be understood is read without a problem. -/
theorem readLine_of_readable (hstage : r.settings.stage = .body) (hsound : r.settings.context.Sound)
    (hidle : Idle r.music v []) (ht : InTime v.notes r.music.voices.ensureActive.cursor)
    {text : Text} {line : Nat} (htokens : Token.tokenize text line = Token.musicTokens line 1 text)
    (hr : ∀ p ∈ Token.symbols text, Readable p) :
    ∃ r' notes, r.readLine text line = .ok r' ∧
      ReadsLine r v ((Token.symbols text).filterMap Item.read?) r' notes := by
  have hsymbols : Token.symbols text = Token.signs (Token.tokenize text line) := by
    rw [htokens]
    exact Token.signs_musicTokens 1 1 line 1 text
  rw [hsymbols] at hr ⊢
  have hr := (forall_signs (fun _ => trivial) _).mp hr
  rw [filterMap_signs,
    readLine_eq hstage fun token htoken => isInnerKind_of_readable (hr token htoken)]
  generalize Token.tokenize text line = tokens at hr
  obtain ⟨s,notes,hall,hreads⟩ := hidle.handleAll ht hsound hr
  split
  · next hspaces =>
    have hnone : tokens.filterMap (fun token => Item.read? (token.kind,token.text)) = [] := by
      apply List.filterMap_eq_nil_iff.mpr
      intro token htoken
      rw [hspaces token htoken]
      rfl
    rw [hnone]
    exact ⟨r,[],rfl,rfl,rfl,rfl,hidle.reads_silence ht _⟩
  · rw [hall]
    have hquiet : ({ r.beginMusic with music := s }.report
        ((tokens.map fun _ => (none : Option Diagnostic)).flatMap Option.toList)) =
        { r.beginMusic with music := s } := by
      simp [report]
    obtain ⟨hend,hidle'⟩ := endLine_of_idle (r := { r.beginMusic with music := s }) hreads.idle line
    refine ⟨{ r.beginMusic with music := s.endLine },notes,?_,rfl,rfl,rfl,hidle',hreads.inTime,
      hreads.pitches⟩
    change Except.ok _ = _
    dsimp only
    rw [hquiet, hend]

/-- Plain music in which no problem is found can be understood. -/
theorem readable_of_readLine (hstage : r.settings.stage = .body) (hsound : r.settings.context.Sound)
    (hidle : Idle r.music v []) (ht : InTime v.notes r.music.voices.ensureActive.cursor)
    {text : Text} (hplain : Token.PlainMusic text) {line : Nat}
    (htokens : Token.tokenize text line = Token.musicTokens line 1 text)
    (hr : r.readLine text line = .ok r') (hnone : r'.diagnostics = []) :
    ∀ p ∈ Token.symbols text, Readable p := by
  have hsymbols : Token.symbols text = Token.signs (Token.tokenize text line) := by
    rw [htokens]
    exact Token.signs_musicTokens 1 1 line 1 text
  have hplain := (Token.plainMusic_iff text).mp hplain
  rw [hsymbols] at hplain ⊢
  have hplain :=
    (forall_signs (P := fun p => Token.isPlainKind p.1 = true) (fun _ => rfl) _).mp hplain
  rw [readLine_eq hstage fun token htoken => isInnerKind_of_isPlainKind (hplain token htoken)] at hr
  refine (forall_signs (fun _ => trivial) _).mpr ?_
  generalize Token.tokenize text line = tokens at hplain hr
  split at hr
  · next hspaces =>
    intro token htoken
    rw [hspaces token htoken]
    trivial
  · cases hall : r.music.handleAll r.settings.context tokens with
    | error e =>
      rw [hall] at hr
      cases hr
    | ok p =>
      obtain ⟨s,outcomes⟩ := p
      rw [hall] at hr
      have hr' := Except.ok.inj hr
      apply hidle.readable ht hsound hplain hall
      intro o ho
      rw [← hr'] at hnone
      have hflat : outcomes.flatMap Option.toList = [] :=
        (List.append_eq_nil_iff.mp (List.append_eq_nil_iff.mp hnone).1).2
      have hlist := List.flatMap_eq_nil_iff.mp hflat o ho
      cases o with
      | none => rfl
      | some d => cases hlist

/-! ## The end of the tune -/

/-- The voices of a tune with the notes of one voice alone, which sound as in that voice. -/
structure Plays (t : Tune Float) (v : Voice Float) : Prop where
  events : t.events = v.notes
  voices : ∀ w ∈ t.voices, w.notes ≠ [] → w.soundingPitch = v.soundingPitch
  voice : v.notes ≠ [] → ∃ w ∈ t.voices, w.notes ≠ [] ∧ w.soundingPitch = v.soundingPitch

section Merging
variable {t merged : Tune Float}

theorem plays_of_silent (hvoices : t.voices = merged.voices)
    (hevents : t.events = merged.mergeVoices) (hsilent : ∀ w ∈ merged.voices, w.notes = [])
    (hv : v.notes = []) : Plays t v := by
  refine ⟨?_,fun w hw hne => absurd (hsilent w (hvoices ▸ hw)) hne,fun hne => absurd hv hne⟩
  have hnone : merged.orderedVoices.flatMap (·.notes) = [] := by
    apply flatMap_notes_eq_nil
    intro w hw
    obtain ⟨id,-,hid⟩ := List.mem_filterMap.mp hw
    exact hsilent w (List.mem_of_find?_eq_some hid)
  rw [hevents, Tune.mergeVoices, hnone, hv]
  exact List.mergeSort_nil

/-- A tune in which one voice has notes, each of them where it was placed. -/
theorem plays_of_one (hvoices : t.voices = merged.voices) (hevents : t.events = merged.mergeVoices)
    (hlisted : merged.Listed) (hv : v ∈ merged.voices)
    (hothers : ∀ w ∈ merged.voices, w.id ≠ v.id → w.notes = []) {cursor : Float}
    (ht : InTime v.notes cursor) : Plays t v := by
  refine ⟨?_,?_,?_⟩
  · rw [hevents, Tune.mergeVoices, hlisted.orderedVoices_eq,
      flatMap_notes_eq hlisted.ids hv hothers, ht.sortNotes_eq]
  · intro w hw hne
    have hw : w ∈ merged.voices := hvoices ▸ hw
    have hid : w.id = v.id := by
      by_contra hid
      exact hne (hothers w hw hid)
    rw [List.inj_on_of_nodup_map hlisted.ids hw hv hid]
  · intro hne
    exact ⟨v,hvoices ▸ hv,hne,rfl⟩

end Merging

theorem plays_of_idle (h : Idle r.music v inForce)
    (ht : InTime v.notes r.music.voices.ensureActive.cursor) {t : Tune Float}
    (hvoices : t.voices = (r.draft.withImplicitVoice implicitVoice).voices)
    (hevents : t.events = (r.draft.withImplicitVoice implicitVoice).mergeVoices) : Plays t v := by
  cases hactive : r.music.voices.active with
  | none =>
    obtain ⟨-,hnotes,hsilent⟩ := h.silent hactive
    have hdraft : ∀ w ∈ r.draft.voices, w.notes = [] := by
      intro w hw
      change w ∈ r.music.voices.close at hw
      rw [VoiceTable.close, hactive] at hw
      exact hsilent w hw
    refine plays_of_silent hvoices hevents (fun w hw => ?_) hnotes
    unfold Tune.withImplicitVoice at hw
    split at hw
    · rw [List.mem_singleton.mp hw]
      rfl
    · exact hdraft w hw
  | some id =>
    obtain rfl : r.music.voices.noteVoice = id := VoiceTable.noteVoice_of_active hactive
    have hensure := VoiceTable.ensureActive_of_active hactive
    have hfind := h.voice
    have hothers := h.others
    have hids := h.ids
    rw [hensure] at hfind hothers hids
    let save (w : Voice Float) : Voice Float := { w with savedTime := r.music.voices.cursor }
    have hclose : r.draft.voices =
        (r.music.voices.modify r.music.voices.noteVoice save).voices := by
      change r.music.voices.close = _
      rw [VoiceTable.close, hactive]
    have hmem : save v ∈ r.draft.voices := by
      rw [hclose]
      exact List.mem_map.mpr ⟨v,List.mem_of_find?_eq_some hfind,if_pos h.id⟩
    have hmerged : r.draft.withImplicitVoice implicitVoice = r.draft := by
      unfold Tune.withImplicitVoice
      exact if_neg (by simpa using List.ne_nil_of_mem hmem)
    rw [hmerged] at hvoices hevents
    have hsilent : ∀ w ∈ r.draft.voices, w.id ≠ (save v).id → w.notes = [] := by
      intro w hw hne
      rw [hclose] at hw
      have hid : w.id ≠ r.music.voices.noteVoice := fun hid => hne (hid.trans h.id.symm)
      exact hothers w (VoiceTable.mem_modify (f := save) (fun _ hw => hw) hw hid) hid
    obtain ⟨hevents,hall,hsome⟩ :=
      plays_of_one (v := save v) hvoices hevents (listed_draft hids) hmem hsilent ht
    exact ⟨hevents,hall,hsome⟩

theorem finish_of_idle (h : Idle r.music v inForce)
    (ht : InTime v.notes r.music.voices.ensureActive.cursor) (hsections : r.sections = [])
    (hunparted : r.draft.Unparted) :
    Plays r.finish v ∧ r.finish.heading = r.settings.heading ∧
      r.finish.diagnostics = r.diagnostics := by
  obtain ⟨hheading,hvoices,hevents,hnone⟩ :=
    Tune.assemble_of_unparted hunparted implicitVoice (r.settings.sequenceLine.getD 0)
  have hfinish : r.finish =
      { (r.draft.assemble implicitVoice [] (r.settings.sequenceLine.getD 0)).1 with
        diagnostics := r.diagnostics } := by
    unfold finish
    rw [hsections]
    dsimp only
    rw [hnone]
    simp
  rw [hfinish]
  exact ⟨plays_of_idle h ht hvoices hevents,hheading,rfl⟩

/-- A tune in which no problem was found, and that has no parts, asks for none. -/
theorem unparted_of_finish (hsections : r.sections = []) (h : r.finish.diagnostics = []) :
    r.diagnostics = [] ∧ r.draft.Unparted := by
  unfold finish at h
  rw [hsections] at h
  obtain ⟨hnone,hproblem⟩ := List.append_eq_nil_iff.mp h
  refine ⟨hnone,Tune.unparted_of_assemble (Option.toList_eq_nil_iff.mp hproblem)⟩

end TuneReading
end AbcTune
