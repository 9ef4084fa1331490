import AbcTune.Proofs.Field
import AbcTune.Proofs.Token.Line
import AbcTune.Proofs.Tune.Reading

/-! # Reading a header

Before its first key line a tune has no music. If no problem was found up to and in that line, the
key is in force and the music starts with voices that have no notes.
-/
namespace AbcTune.TuneReading

open FieldState (BeforeMusic)

variable {r r' : TuneReading}

/-- Nothing was read but fields. -/
structure Untouched (r : TuneReading) : Prop where
  fields : r.fieldState.BeforeMusic
  music : r.music = { MusicState.initial with voices := r.music.voices }
  sections : r.sections = []

/-- The header has ended, and the music starts in the key of the tune. -/
structure Opened (r : TuneReading) : Prop extends r.Untouched where
  stage : r.settings.stage = .body
  key : r.settings.heading.key = r.settings.context.key

theorem untouched_initial (hasHeader : Bool) : (TuneReading.initial hasHeader).Untouched :=
  ⟨⟨MusicContext.sound_initial,VoiceTable.fresh_empty⟩,rfl,rfl⟩

theorem Untouched.report (h : r.Untouched) (ds : List Diagnostic) : (r.report ds).Untouched :=
  ⟨h.fields,h.music,h.sections⟩

theorem Untouched.setFieldState (h : r.Untouched) {s : FieldState} (hs : s.BeforeMusic) :
    (r.setFieldState s).Untouched := by
  refine ⟨hs,?_,h.sections⟩
  change { r.music with voices := s.voices } = _
  rw [h.music]
  rfl

theorem Untouched.readField (h : r.Untouched) (hstage : r.settings.stage = .header) {token : Token}
    {name : Char} (hkind : token.kind = .field name) (hname : name ≠ 'K') :
    (r.readField token).Untouched ∧ (r.readField token).settings.stage = .header := by
  obtain ⟨hstage',hbefore,hpart⟩ := h.fields.applyNamed hstage hname token
  have hkept := h.setFieldState hbefore
  unfold TuneReading.readField FieldState.applyField
  rw [hkind]
  dsimp only
  cases hresult : (r.fieldState.applyNamed name token).2 with
  | error problem => exact ⟨hkept.report _,hstage'⟩
  | ok effect =>
    cases effect with
    | none => exact ⟨hkept,hstage'⟩
    | switched id => exact ⟨hkept,hstage'⟩
    | partStarted label => exact absurd hresult (hpart label)

/-- A key field with which nothing is wrong ends the header. -/
theorem Untouched.readKey (h : r.Untouched) (hstage : r.settings.stage = .header) {token : Token}
    (hkind : token.kind = .field 'K') :
    r.diagnostics.length < (r.readField token).diagnostics.length ∨ (r.readField token).Opened := by
  have happlied : r.fieldState.applyField token =
      ((r.fieldState.applyKey token).1,
        (r.fieldState.applyKey token).2.mapError (.metadata token.line)) := by
    unfold FieldState.applyField
    rw [hkind]
    rfl
  unfold TuneReading.readField
  rw [happlied]
  dsimp only
  rcases h.fields.applyKey hstage token with ⟨problem,hproblem⟩ | ⟨hbefore,hbody,hkeys,hnone⟩
  · rw [hproblem]
    refine .inl ?_
    simp [Except.mapError, TuneReading.report, TuneReading.setFieldState]
  · rw [hnone]
    exact .inr { h.setFieldState hbefore with stage := hbody, key := hkeys }

/-! ## Lines of a header -/

/-- A line before the key line leaves the header open. -/
theorem Untouched.readLine (h : r.Untouched) (hstage : r.settings.stage = .header) {block : Text}
    (hkey : Repeat.isKeyLine block = false) {line : Nat}
    (hr : r.readLine (Text.dropLineEnd block) line = .ok r') :
    r'.Untouched ∧ r'.settings.stage = .header := by
  obtain ⟨e,hblock,hbreaks⟩ := Token.exists_lineBreaks block
  rw [hblock, Repeat.isKeyLine_append _ hbreaks] at hkey
  have hcourse := course_of_readLine hr
  unfold Token.tokenize at hcourse
  generalize Token.dropLineBreaks (Text.dropLineEnd block) = t at hkey hcourse
  generalize htokens : Token.ofLine t line = tokens at hcourse
  cases hcourse with
  | field hkind =>
    refine h.readField hstage hkind ?_
    rintro rfl
    obtain ⟨value,rfl⟩ := Token.ofLine_field htokens hkind
    cases hkey
  | @directive first rest hkind =>
    obtain ⟨hbefore,hsame⟩ := h.fields.applyDirective first.text line
    exact ⟨(h.setFieldState hbefore).report _,hsame.trans hstage⟩
  | passed hpassed => exact ⟨h,hstage⟩
  | early hkind hsolid hheader => exact ⟨h.report _,hstage⟩
  | music hkind hsolid hbody hread => cases hstage.symm.trans hbody

/-- A key line in which no problem was found ends the header. -/
theorem Untouched.readKeyLine (h : r.Untouched) (hstage : r.settings.stage = .header) {block : Text}
    (hkey : Repeat.isKeyLine block = true) {line : Nat}
    (hr : r.readLine (Text.dropLineEnd block) line = .ok r') :
    r.diagnostics.length < r'.diagnostics.length ∨ r'.Opened := by
  obtain ⟨e,hblock,hbreaks⟩ := Token.exists_lineBreaks block
  rw [hblock, Repeat.isKeyLine_append _ hbreaks] at hkey
  unfold TuneReading.readLine Token.tokenize at hr
  generalize Token.dropLineBreaks (Text.dropLineEnd block) = t at hkey hr
  rcases Token.ofLine_keyLine hkey line with ⟨value,hfield⟩ | ⟨first,rest,hmusic,hkind,hspaces⟩
  · rw [hfield] at hr
    obtain rfl := Except.ok.inj hr
    exact h.readKey hstage rfl
  · have hspaces : ¬(first :: rest).all (·.kind == .space) = true := by
      simpa using hspaces
    rw [hmusic, readLineTokens_music _ _ _ hkind, if_neg hspaces, if_pos hstage] at hr
    obtain rfl := Except.ok.inj hr
    exact .inl (by simp [TuneReading.report])

/-- A header in which no problem was found opens the music. -/
theorem Untouched.readHeader (h : r.Untouched) (hstage : r.settings.stage = .header)
    {blocks : List Text} (hblocks : Repeat.splitAtKey blocks = some (blocks,[])) {first : Nat}
    (hr : r.readLines (numberLines first (blocks.map Text.dropLineEnd)) = .ok r')
    (hnone : r'.diagnostics = []) : r'.Opened := by
  induction blocks generalizing r first with
  | nil => cases hblocks
  | cons block rest ih =>
    rw [List.map_cons, numberLines, TuneReading.readLines] at hr
    cases hline : r.readLine (Text.dropLineEnd block) first with
    | error e =>
      rw [hline] at hr
      cases hr
    | ok r₁ =>
      rw [hline, ok_bind] at hr
      rw [Repeat.splitAtKey] at hblocks
      split at hblocks
      · next hkey =>
        obtain rfl : rest = [] := (Prod.mk.inj (Option.some.inj hblocks)).2
        obtain rfl := Except.ok.inj hr
        rcases h.readKeyLine hstage hkey hline with hproblem | hopened
        · rw [hnone] at hproblem
          exact absurd hproblem (Nat.not_lt_zero _)
        · exact hopened
      · next hkey =>
        obtain ⟨⟨head,body⟩,hrest,hpair⟩ := Option.map_eq_some_iff.mp hblocks
        obtain ⟨hhead,rfl⟩ := Prod.mk.inj hpair
        obtain rfl := (List.cons.inj hhead).2
        obtain ⟨h₁,hstage₁⟩ := h.readLine hstage (Bool.eq_false_iff.mpr hkey) hline
        exact ih h₁ hstage₁ hrest hr

end AbcTune.TuneReading
