import AbcTune.Proofs.Music.Interleaving
import AbcTune.Proofs.Token.Line
import AbcTune.Tune.Reading

/-! # Reading line by line

The lines of a tune are read one after another. What was found in earlier lines is only kept: it
makes no difference to what later ones do.
-/
namespace AbcTune

theorem numberLines_append (first : Nat) (xs ys : List Text) :
    numberLines first (xs ++ ys) = numberLines first xs ++ numberLines (first + xs.length) ys := by
  induction xs generalizing first with
  | nil => rfl
  | cons x xs ih =>
    rw [List.cons_append, numberLines, numberLines, ih, List.cons_append, List.length_cons,
      Nat.add_assoc, Nat.add_comm 1]

theorem mem_of_mem_numberLines {first : Nat} {xs : List Text} {l : Nat × Text}
    (h : l ∈ numberLines first xs) : l.2 ∈ xs := by
  induction xs generalizing first with
  | nil => cases h
  | cons x xs ih =>
    rcases List.mem_cons.mp h with rfl | h
    · exact List.mem_cons_self
    · exact List.mem_cons_of_mem x (ih h)

/-! ## Problems with fields and parts -/

/-- A problem with a field has the line of the field. -/
theorem FieldState.metadata_of_applyField {s : FieldState} {token : Token} {d : Diagnostic}
    (h : (s.applyField token).2 = .error d) : ∃ p, d = .metadata token.line p := by
  have hmetadata : ∀ result : Except FieldProblem FieldEffect,
      result.mapError (.metadata token.line) = .error d → ∃ p, d = .metadata token.line p := by
    intro result hresult
    cases result with
    | error p =>
      cases hresult
      exact ⟨p,rfl⟩
    | ok effect => cases hresult
  unfold FieldState.applyField at h
  split at h
  · exact hmetadata _ h
  · exact hmetadata _ h
  · cases h

/-- What is wrong with the parts of a tune is that one of them is not there. -/
theorem Tune.undefinedPart_of_assemble {t : Tune Float} {id : String}
    {sections : List (Section Float)} {line : Nat} :
    ∀ d ∈ (t.assemble id sections line).2, ∃ label, d = .structural line (.undefinedPart label) := by
  intro d hd
  unfold Tune.assemble at hd
  dsimp only at hd
  unfold Tune.arrangeParts at hd
  split at hd
  · cases hd
  · cases hd
  · split at hd
    · cases hd
    · next label _ =>
      cases hd
      exact ⟨label,rfl⟩

namespace TuneReading

/-! ## Kinds of lines -/

section Kinds
variable (r : TuneReading) {first : Token} (rest : List Token) (line : Nat)

theorem readLineTokens_field {name : Char} (h : first.kind = .field name) :
    r.readLineTokens (first :: rest) line = .ok (r.readField first) := by
  rw [readLineTokens, h]

theorem readLineTokens_directive (h : first.kind = .directive) :
    r.readLineTokens (first :: rest) line = .ok (r.readDirective first.text line) := by
  rw [readLineTokens, h]

theorem readLineTokens_comment (h : first.kind = .comment) :
    r.readLineTokens (first :: rest) line = .ok r := by
  rw [readLineTokens, h]

/-- Blanks are passed over, and music counts behind the header alone. -/
theorem readLineTokens_music (h : Token.isLineKind first.kind = false) :
    r.readLineTokens (first :: rest) line =
      if (first :: rest).all (·.kind == .space) then .ok r
      else if r.settings.stage = .header then .ok (r.report [.parse line first.column .beforeKey])
      else r.readMusic (first :: rest) line := by
  unfold readLineTokens
  dsimp only
  generalize first.kind = kind at h
  cases kind
  all_goals first | rfl | cases h

end Kinds

/-- What a line with the given tokens makes of a reading: a field or a directive is applied, and
music is read behind the header, where it belongs. Blanks and comments are passed over. -/
inductive LineCourse (r : TuneReading) (line : Nat) : List Token → TuneReading → Prop where
  | field {first : Token} {rest : List Token} {name : Char} (hkind : first.kind = .field name) :
      LineCourse r line (first :: rest) (r.readField first)
  | directive {first : Token} {rest : List Token} (hkind : first.kind = .directive) :
      LineCourse r line (first :: rest) (r.readDirective first.text line)
  | passed {tokens : List Token} (hpassed : ∀ first ∈ tokens.head?,
      first.kind = .comment ∨ tokens.all (·.kind == .space) = true) : LineCourse r line tokens r
  | early {first : Token} {rest : List Token} (hkind : Token.isLineKind first.kind = false)
      (hsolid : (first :: rest).all (·.kind == .space) = false)
      (hstage : r.settings.stage = .header) :
      LineCourse r line (first :: rest) (r.report [.parse line first.column .beforeKey])
  | music {first : Token} {rest : List Token} {next : TuneReading}
      (hkind : Token.isLineKind first.kind = false)
      (hsolid : (first :: rest).all (·.kind == .space) = false)
      (hstage : r.settings.stage = .body) (hread : r.readMusic (first :: rest) line = .ok next) :
      LineCourse r line (first :: rest) next

theorem course_of_readLineTokens {r next : TuneReading} {tokens : List Token} {line : Nat}
    (h : r.readLineTokens tokens line = .ok next) : r.LineCourse line tokens next := by
  cases tokens with
  | nil =>
    cases h
    exact .passed (by simp)
  | cons first rest =>
    rcases Token.lineKind_cases first.kind with ⟨name,hkind⟩ | hkind | hkind | hkind
    · rw [readLineTokens_field _ _ _ hkind] at h
      cases h
      exact .field hkind
    · rw [readLineTokens_directive _ _ _ hkind] at h
      cases h
      exact .directive hkind
    · rw [readLineTokens_comment _ _ _ hkind] at h
      cases h
      exact .passed (by simp [hkind])
    · rw [readLineTokens_music _ _ _ hkind] at h
      split at h
      · next hblank =>
        cases h
        exact .passed fun _ _ => .inr hblank
      · next hsolid =>
        have hsolid := Bool.eq_false_iff.mpr hsolid
        split at h
        · next hstage =>
          cases h
          exact .early hkind hsolid hstage
        · next hstage =>
          have hbody : r.settings.stage = .body := by
            cases hs : r.settings.stage with
            | header => exact absurd hs hstage
            | body => rfl
          exact .music hkind hsolid hbody h

theorem course_of_readLine {r next : TuneReading} {text : Text} {line : Nat}
    (h : r.readLine text line = .ok next) : r.LineCourse line (Token.tokenize text line) next :=
  course_of_readLineTokens h

/-! ## Problems found before -/

/-- The reading where other problems had been found before. -/
def under (r : TuneReading) (ds : List Diagnostic) : TuneReading :=
  { r with diagnostics := ds ++ r.diagnostics }

variable {r r' : TuneReading}

theorem under_report (r : TuneReading) (ds more : List Diagnostic) :
    (r.under ds).report more = (r.report more).under ds := by
  unfold under report
  rw [List.append_assoc]

theorem readField_under (r : TuneReading) (ds : List Diagnostic) (token : Token) :
    (r.under ds).readField token = (r.readField token).under ds := by
  unfold readField
  have hstate : (r.under ds).fieldState = r.fieldState := rfl
  rw [hstate]
  rcases r.fieldState.applyField token with ⟨s,result⟩
  cases result with
  | error d => exact under_report (r.setFieldState s) ds [d]
  | ok effect => cases effect <;> rfl

theorem readDirective_under (r : TuneReading) (ds : List Diagnostic) (text : Text) (line : Nat) :
    (r.under ds).readDirective text line = (r.readDirective text line).under ds :=
  under_report (r.setFieldState (r.fieldState.applyDirective text line).1) ds _

/-- A token that is no field is read as music. -/
theorem readToken_eq (r : TuneReading) {token : Token}
    (hkind : ∀ name, token.kind ≠ .inlineField name) :
    r.readToken token = (r.music.handle token r.settings.context).map fun p =>
      { r with music := p.1 }.report (p.2.toList.map (Diagnostic.atToken token)) := by
  unfold readToken
  split
  · next name hname => exact absurd hname (hkind name)
  · cases r.music.handle token r.settings.context <;> rfl

theorem readToken_under (r : TuneReading) (ds : List Diagnostic) (token : Token) :
    (r.under ds).readToken token = (r.readToken token).map (·.under ds) := by
  by_cases hkind : ∃ name, token.kind = .inlineField name
  · obtain ⟨name,hkind⟩ := hkind
    unfold readToken
    rw [hkind]
    exact congrArg _ (readField_under r ds token)
  · have hkind : ∀ name, token.kind ≠ .inlineField name := fun name hname => hkind ⟨name,hname⟩
    rw [readToken_eq _ hkind, readToken_eq _ hkind]
    change (r.music.handle token r.settings.context).map _ = _
    cases r.music.handle token r.settings.context with
    | error e => rfl
    | ok p => exact congrArg _ (under_report { r with music := p.1 } ds _)

theorem readTokens_under (r : TuneReading) (ds : List Diagnostic) (tokens : List Token) :
    (r.under ds).readTokens tokens = (r.readTokens tokens).map (·.under ds) := by
  induction tokens generalizing r with
  | nil => rfl
  | cons token rest ih =>
    rw [readTokens, readTokens, readToken_under]
    cases r.readToken token with
    | error e => rfl
    | ok r' => exact ih r'

theorem readMusic_under (r : TuneReading) (ds : List Diagnostic) (tokens : List Token)
    (line : Nat) :
    (r.under ds).readMusic tokens line = (r.readMusic tokens line).map (·.under ds) := by
  unfold readMusic
  have hbegin : (r.under ds).beginMusic = r.beginMusic.under ds := rfl
  rw [hbegin, readTokens_under]
  cases r.beginMusic.readTokens tokens with
  | error e => rfl
  | ok r' =>
    refine congrArg Except.ok ?_
    split
    · rfl
    · exact under_report { r' with music := r'.music.endLine } ds _

theorem readLine_under (r : TuneReading) (ds : List Diagnostic) (text : Text) (line : Nat) :
    (r.under ds).readLine text line = (r.readLine text line).map (·.under ds) := by
  unfold readLine
  cases Token.tokenize text line with
  | nil => rfl
  | cons first rest =>
    rcases Token.lineKind_cases first.kind with ⟨name,hkind⟩ | hkind | hkind | hkind
    · rw [readLineTokens_field _ _ _ hkind, readLineTokens_field _ _ _ hkind, readField_under]
      rfl
    · rw [readLineTokens_directive _ _ _ hkind, readLineTokens_directive _ _ _ hkind,
        readDirective_under]
      rfl
    · rw [readLineTokens_comment _ _ _ hkind, readLineTokens_comment _ _ _ hkind]
      rfl
    · rw [readLineTokens_music _ _ _ hkind, readLineTokens_music _ _ _ hkind]
      split
      · rfl
      · change ite (r.settings.stage = .header) _ _ = _
        split
        · exact congrArg _ (under_report r ds _)
        · exact readMusic_under r ds _ line

/-- What a text is read as does not depend on the problems found before it. -/
theorem readLines_under (r : TuneReading) (ds : List Diagnostic) (lines : List (Nat × Text)) :
    (r.under ds).readLines lines = (r.readLines lines).map (·.under ds) := by
  induction lines generalizing r with
  | nil => rfl
  | cons line rest ih =>
    rw [readLines, readLines, readLine_under]
    cases r.readLine line.2 line.1 with
    | error e => rfl
    | ok r' => exact ih r'

theorem readLines_append (r : TuneReading) (xs ys : List (Nat × Text)) :
    r.readLines (xs ++ ys) = (r.readLines xs >>= fun r => r.readLines ys) := by
  induction xs generalizing r with
  | nil => rfl
  | cons x xs ih =>
    rw [List.cons_append, readLines, readLines]
    cases r.readLine x.2 x.1 with
    | error e => rfl
    | ok r' => exact ih r'

/-- Problems that were found are kept. -/
theorem exists_diagnostics {text : Text} {line : Nat} (h : r.readLine text line = .ok r') :
    ∃ ds, r'.diagnostics = r.diagnostics ++ ds := by
  have hunder : r = { r with diagnostics := [] }.under r.diagnostics := by
    simp [under]
  rw [hunder, readLine_under] at h
  cases hline : { r with diagnostics := [] }.readLine text line with
  | error e =>
    rw [hline] at h
    cases h
  | ok r'' =>
    rw [hline] at h
    exact ⟨r''.diagnostics,by rw [← Except.ok.inj h]; rfl⟩

/-! ## Music without fields -/

theorem readTokens_eq (r : TuneReading) {tokens : List Token}
    (hkinds : ∀ token ∈ tokens, ∀ name, token.kind ≠ .inlineField name) :
    r.readTokens tokens = (r.music.handleAll r.settings.context tokens).map fun p =>
      { r with music := p.1 }.report (p.2.flatMap Option.toList) := by
  induction tokens generalizing r with
  | nil =>
    change Except.ok r = Except.ok (r.report [])
    simp [report]
  | cons token rest ih =>
    rw [readTokens, MusicState.handleAll, readToken_eq r (hkinds token List.mem_cons_self)]
    cases r.music.handle token r.settings.context with
    | error e => rfl
    | ok handled =>
      obtain ⟨s,problem⟩ := handled
      let r' := { r with music := s }.report (problem.toList.map (Diagnostic.atToken token))
      have hrest := ih r' fun token htoken => hkinds token (List.mem_cons_of_mem _ htoken)
      have hall : r'.music.handleAll r'.settings.context rest =
          s.handleAll r.settings.context rest := rfl
      rw [hall] at hrest
      rw [ok_bind]
      change r'.readTokens rest = _
      rw [hrest]
      dsimp only
      cases s.handleAll r.settings.context rest with
      | error e => rfl
      | ok handled =>
        refine congrArg Except.ok ?_
        cases problem <;> simp [r', report]

/-! ## What every step keeps -/

/-- What goes on to hold in every step of reading lines whose tokens are all of some sort. -/
structure Kept (Q : Token → Prop) (P : TuneReading → Prop) : Prop where
  report : ∀ {r : TuneReading} (ds : List Diagnostic), P r → P (r.report ds)
  field : ∀ {r : TuneReading} {token : Token}, Q token → P r → P (r.readField token)
  directive : ∀ {r : TuneReading} (text : Text) (line : Nat), P r → P (r.readDirective text line)
  music : ∀ {r : TuneReading} {token : Token} {music : MusicState Float}
    {problem : Option MusicProblem},
    r.music.handle token r.settings.context = .ok (music,problem) → P r → P { r with music }
  beginMusic : ∀ {r : TuneReading}, P r → P r.beginMusic
  endMusic : ∀ {r : TuneReading}, P r → P { r with music := r.music.endLine }

section Keeping
variable {Q : Token → Prop} {P : TuneReading → Prop}

theorem Kept.readToken (h : Kept Q P) {token : Token} (htoken : Q token) (hr : P r)
    (hread : r.readToken token = .ok r') : P r' := by
  by_cases hkind : ∃ name, token.kind = .inlineField name
  · obtain ⟨name,hkind⟩ := hkind
    rw [TuneReading.readToken, hkind] at hread
    cases hread
    exact h.field htoken hr
  · rw [readToken_eq r fun name hname => hkind ⟨name,hname⟩] at hread
    obtain ⟨⟨music,problem⟩,hhandle,rfl⟩ := exists_of_map_ok hread
    exact h.report _ (h.music hhandle hr)

theorem Kept.readTokens (h : Kept Q P) {tokens : List Token} (htokens : ∀ t ∈ tokens, Q t)
    (hr : P r) (hread : r.readTokens tokens = .ok r') : P r' := by
  induction tokens generalizing r with
  | nil =>
    cases hread
    exact hr
  | cons token rest ih =>
    obtain ⟨hfirst,hrest⟩ := List.forall_mem_cons.mp htokens
    obtain ⟨next,hnext,hread⟩ := exists_of_bind_ok hread
    exact ih hrest (h.readToken hfirst hr hnext) hread

theorem Kept.readLine (h : Kept Q P) {text : Text} {line : Nat}
    (htokens : ∀ t ∈ Token.tokenize text line, Q t) (hr : P r)
    (hread : r.readLine text line = .ok r') : P r' := by
  have hcourse := course_of_readLine hread
  generalize Token.tokenize text line = tokens at htokens hcourse
  cases hcourse with
  | field hkind => exact h.field (htokens _ List.mem_cons_self) hr
  | directive hkind => exact h.directive _ line hr
  | passed hpassed => exact hr
  | early hkind hsolid hstage => exact h.report _ hr
  | music hkind hsolid hstage hread =>
    obtain ⟨next,hnext,hend⟩ := exists_of_bind_ok hread
    have hmusic : P next := h.readTokens htokens (h.beginMusic hr) hnext
    cases hend
    split
    · exact hmusic
    · exact h.report _ (h.endMusic hmusic)

theorem Kept.readLines (h : Kept Q P) {lines : List (Nat × Text)}
    (htokens : ∀ l ∈ lines, ∀ t ∈ Token.tokenize l.2 l.1, Q t) (hr : P r)
    (hread : r.readLines lines = .ok r') : P r' := by
  induction lines generalizing r with
  | nil =>
    cases hread
    exact hr
  | cons line rest ih =>
    obtain ⟨hfirst,hrest⟩ := List.forall_mem_cons.mp htokens
    obtain ⟨next,hnext,hread⟩ := exists_of_bind_ok hread
    exact ih hrest (h.readLine hfirst hr hnext) hread

end Keeping

/-! ## Whole sources -/

/-- All that is read of a source, before it is completed. -/
def ofSource (source : Text) : Except Fault TuneReading := do
  let (text, problems) ← expandSource source
  ((TuneReading.initial (hasKeyLine text)).report problems).readLines
    (numberLines 1 (Text.lines text))

theorem Kept.ofSource {Q : Token → Prop} {P : TuneReading → Prop} (h : Kept Q P)
    (hinitial : ∀ hasHeader, P (.initial hasHeader))
    (htokens : ∀ (t : Text) (line : Nat), '\n' ∉ t → ∀ token ∈ Token.tokenize t line, Q token)
    {source : Text} (hread : ofSource source = .ok r) : P r := by
  obtain ⟨expanded,-,hlines⟩ := exists_of_bind_ok hread
  refine h.readLines ?_ (h.report expanded.2 (hinitial _)) hlines
  intro l hl
  exact htokens l.2 l.1 (Text.lineFeed_notMem_of_mem_lines _ (mem_of_mem_numberLines hl))

end TuneReading

theorem Tune.read_eq (source : Text) :
    read source = (TuneReading.ofSource source).map (·.finish) := by
  unfold read TuneReading.ofSource
  cases expandSource source with
  | error e => rfl
  | ok expanded =>
    rw [ok_bind, ok_bind]
    dsimp only
    cases ((TuneReading.initial (hasKeyLine expanded.1)).report expanded.2).readLines
        (numberLines 1 (Text.lines expanded.1)) <;> rfl

end AbcTune
