import AbcTune.Proofs.Music.InRange
import AbcTune.Proofs.Music.Rejected
import AbcTune.Proofs.Token.Slices

/-! # Tokens that are decoded

Cutting a line into tokens and taking their texts apart go through the same characters separately.
What was cut off as a rest, a bar rest, the end of a chord, a tuplet or a named decoration has the
form that its reader expects, so that only a number in it can be wrong: a length of zero or one
divided by zero, a tuplet of no notes, or a number that is too large.
-/
namespace AbcTune.MusicState

variable {s : MusicState Rat}

/-- A token is decoded for what is written, and is wrong only for a number in it. The number is read
exactly. -/
def Decodes (s : MusicState Rat) (token : Token) (context : MusicContext Rat) : Prop :=
  match token.kind with
  | .rest => ∃ (c : Char) (l : LengthText), token.text = c :: l.text ∧
      readLength? (token.text.drop 1) = (if l.IsZero then none else some l.value) ∧
      (s.graceGroup = none → s.chord = none →
        if l.IsZero then s.handle token context = .ok (s,some (.badRest token.text))
        else ∃ t, s.handle token context = .ok (t,none))
  | .multiRest => ∃ t, s.handle token context = .ok (t,none)
  | .chordEnd => ∃ l : LengthText, token.text = ']' :: l.text ∧
      readLength? (token.text.drop 1) = (if l.IsZero then none else some l.value) ∧
      (s.chord.isSome →
        if l.IsZero then
          s.handle token context = .ok ({ s with chord := none },some (.badChordLength token.text))
        else
          (∀ t problem, s.handle token context = .ok (t,problem) → problem = none) ∧
            (¬s.ClosesElsewhere token → ∃ t, s.handle token context = .ok (t,none)))
  | .tuplet => ∃ g : TupletText, token.text = g.text ∧
      Tuplet.read? token.text context.meter =
        if g.Fits then some (g.tuplet context.meter) else none
  | .extendedDecoration => ∃ (c : Char) (name : Text), token.text = c :: (name ++ [c]) ∧
      c.utf8Size = 1 ∧ name ≠ []
  | _ => True

theorem rest_text (c : Char) (l : LengthText) (context : MusicContext Rat)
    (hgrace : s.graceGroup = none) (hchord : s.chord = none) :
    if l.IsZero then s.rest (c :: l.text) context = .ok (s,some (.badRest (c :: l.text)))
    else ∃ t, s.rest (c :: l.text) context = .ok (t,none) := by
  simp only [MusicState.rest, hgrace, hchord, List.drop_succ_cons, List.drop_zero,
    l.readLength?_text]
  by_cases hzero : l.IsZero
  · simp only [if_pos hzero]
    rfl
  · simp only [if_neg hzero]
    exact ⟨_,rfl⟩

theorem multiRest_text (s : MusicState Rat) (c : Char) {digits : Text}
    (hdigits : ∀ d ∈ digits, d.isDigit = true) (context : MusicContext Rat) :
    ∃ t, s.multiRest (c :: digits) context = .ok (t,none) := by
  have hbars : ∃ bars : Rat, barCount? digits = some bars := by
    unfold barCount?
    cases digits with
    | nil => exact ⟨_,rfl⟩
    | cons d digits =>
      rw [Number.readDigits?_of_isDigit hdigits nofun]
      exact ⟨_,rfl⟩
  obtain ⟨bars,hbars⟩ := hbars
  simp only [MusicState.multiRest, List.drop_succ_cons, List.drop_zero, hbars]
  exact ⟨_,rfl⟩

theorem closeChord_zero {chord : OpenChord Rat} {l : LengthText} (hchord : s.chord = some chord)
    (hzero : l.IsZero) : s.closeChord (']' :: l.text) =
      .ok ({ s with chord := none },some (.badChordLength (']' :: l.text))) := by
  simp only [MusicState.closeChord, hchord, List.drop_succ_cons, List.drop_zero,
    l.readLength?_text, if_pos hzero]
  rfl

theorem rejects_closeChord_length {chord : OpenChord Rat} {text : Text} {length : Rat}
    (hchord : s.chord = some chord) (hlength : readLength? (text.drop 1) = some length) :
    Rejects (fun _ => False) (s.closeChord text) := by
  simp only [MusicState.closeChord, hchord, hlength]
  split
  · exact rejects_bind fun _ => rejects_accept _
  · exact rejects_bind fun _ => rejects_bind fun _ => rejects_accept _

theorem closeChord_length {chord : OpenChord Rat} {text : Text} {length : Rat}
    (hchord : s.chord = some chord) (hlength : readLength? (text.drop 1) = some length)
    (hnotes : ∀ v, s.voices.ensureActive.find? s.voices.noteVoice = some v →
      ∀ i ∈ chord.notes, i < v.notes.length) : ∃ t, s.closeChord text = .ok (t,none) := by
  cases hv : s.voices.ensureActive.find? s.voices.noteVoice with
  | none =>
    simp only [MusicState.closeChord, hchord, hlength, hv]
    exact ⟨_,rfl⟩
  | some v =>
    obtain ⟨w,-,hclosed⟩ := closeChord_ok hchord hlength hv (hnotes v hv)
    exact ⟨_,hclosed⟩

theorem decodes_of_hasForm {token : Token} (h : Token.HasForm token.kind token.text)
    (context : MusicContext Rat) : s.Decodes token context := by
  obtain ⟨kind,text,line,column,properties⟩ := token
  cases kind
  case rest =>
    obtain ⟨c,l,-,rfl⟩ := h
    exact ⟨c,l,rfl,l.readLength?_text,rest_text c l context⟩
  case multiRest =>
    obtain ⟨c,digits,-,hdigits,rfl⟩ := h
    exact multiRest_text s c hdigits context
  case chordEnd =>
    obtain ⟨l,rfl⟩ := h
    refine ⟨l,rfl,l.readLength?_text,fun hopen => ?_⟩
    obtain ⟨chord,hchord⟩ := Option.isSome_iff_exists.mp hopen
    by_cases hzero : l.IsZero
    · rw [if_pos hzero]
      exact closeChord_zero hchord hzero
    · have hlength : readLength? ((']' :: l.text).drop 1) = some l.value :=
        l.readLength?_text.trans (if_neg hzero)
      rw [if_neg hzero]
      constructor
      · rintro t (- | problem) hok
        · rfl
        · exact (rejects_closeChord_length hchord hlength t problem hok).elim
      · intro hclose
        refine closeChord_length hchord hlength fun v hv i hi => ?_
        by_contra hlong
        exact hclose ⟨rfl,hlength ▸ rfl,chord,v,hchord,hv,i,hi,Nat.le_of_not_lt hlong⟩
  case tuplet =>
    obtain ⟨g,rfl⟩ := h
    exact ⟨g,rfl,g.read?_text context.meter⟩
  case extendedDecoration =>
    obtain ⟨c,name,hc,hne,rfl⟩ := h
    exact ⟨c,name,rfl,by rcases hc with rfl | rfl <;> rfl,hne⟩
  all_goals trivial

/-- Whatever stands on a line and whatever has been read before it, each token that is cut from the
line is decoded. -/
theorem decodes_of_mem_tokenize {text : Text} {line : Nat} {token : Token}
    (h : token ∈ Token.tokenize text line) (s : MusicState Rat) (context : MusicContext Rat) :
    s.Decodes token context :=
  decodes_of_hasForm (Token.hasForm_of_mem_tokenize h) context

/-- A tuplet without its time, a rest with two divisors, which is read, and the end of a chord of a
length divided by zero, which drops the chord. -/
theorem decodes_of_mem_tokenize_mixed :
    let token (kind : TokenKind) (text : String) (column : Nat) : Token :=
      ⟨kind,text.toList,1,column,[]⟩
    let tokens := [token .tuplet "(5::3" 1,token .rest "z3//" 6,token .multiRest "Z12" 10,
      token .extendedDecoration "!mf!" 13,token .chordEnd "]4/0" 17]
    Token.tokenize "(5::3z3//Z12!mf!]4/0".toList 1 = tokens ∧
      (∀ token ∈ tokens, (initial : MusicState Rat).Decodes token .initial) ∧
      Tuplet.read? "(5::3".toList .common = some ⟨5,2,3⟩ ∧
      (∃ t, (initial : MusicState Rat).handle (token .rest "z3//" 6) .initial = .ok (t,none)) ∧
      ∃ s : MusicState Rat, s.chord.isSome ∧
        s.handle (token .chordEnd "]4/0" 17) .initial =
          .ok ({ s with chord := none },some (.badChordLength "]4/0".toList)) := by
  intro token tokens
  have htokens : Token.tokenize "(5::3z3//Z12!mf!]4/0".toList 1 = tokens := by decide +kernel
  have hdecodes (t : Token) (ht : t ∈ tokens) (s : MusicState Rat) : s.Decodes t .initial :=
    decodes_of_mem_tokenize (htokens ▸ ht) s .initial
  refine ⟨htokens,fun t ht => hdecodes t ht initial,by decide +kernel,?_,?_⟩
  · obtain ⟨c,l,-,hlength,hrest⟩ := hdecodes (token .rest "z3//" 6) (by decide) initial
    have hvalue : readLength? ("z3//".toList.drop 1) = some (3 / 4 : Rat) := by decide +kernel
    have hzero : ¬l.IsZero := by
      intro hzero
      rw [if_pos hzero] at hlength
      cases hvalue.symm.trans hlength
    have hok := hrest rfl rfl
    rwa [if_neg hzero] at hok
  · let chord : OpenChord Rat := ⟨0,[],none,1,[],[]⟩
    let s : MusicState Rat := { initial with chord := some chord }
    obtain ⟨l,-,hlength,hchord⟩ := hdecodes (token .chordEnd "]4/0" 17) (by decide) s
    have hvalue : (readLength? ("]4/0".toList.drop 1) : Option Rat) = none := by decide +kernel
    have hzero : l.IsZero := by
      by_contra hzero
      rw [if_neg hzero] at hlength
      cases hvalue.symm.trans hlength
    have hok := hchord rfl
    rw [if_pos hzero] at hok
    exact ⟨s,rfl,hok⟩

end AbcTune.MusicState
