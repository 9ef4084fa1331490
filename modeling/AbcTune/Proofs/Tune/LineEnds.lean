import AbcTune.Proofs.Tune.Labels

/-! # What lines leave open

A tuplet, a grace group or a chord that is open at the end of a line of music is reported there,
unless the line goes on in the next one. Then it stays open, and nothing but the end of a later line
of music reports it: the end of the tune does not.
-/
namespace AbcTune

/-- Whether something is reported that a line has left open. -/
def StructureProblem.isLeftOpen : StructureProblem → Bool
  | .openTuplet _ _ | .openGrace | .openChord => true
  | .undefinedPart _ | .stated _ => false

def Diagnostic.isLeftOpen : Diagnostic → Bool
  | .structural _ p => p.isLeftOpen
  | .parse _ _ _ | .metadata _ _ | .repeatLimit _ | .several _ => false

/-- The end of a line of music, with what is open there. -/
structure LineEnd where
  line : Nat
  left : List StructureProblem
  /-- Whether the line goes on in the next one. -/
  continued : Bool

namespace LineEnd

def reports (e : LineEnd) : List Diagnostic :=
  if e.continued then [] else e.left.map (.structural e.line)

/-- What stays open behind the line. -/
def kept (e : LineEnd) : List StructureProblem := if e.continued then e.left else []

end LineEnd

namespace MusicState

theorem isLeftOpen_openProblems (s : MusicState Float) :
    ∀ p ∈ s.openProblems, p.isLeftOpen = true := by
  intro p hp
  unfold openProblems at hp
  rcases List.mem_append.mp hp with hp | hp
  · rcases List.mem_append.mp hp with hp | hp
    · obtain ⟨t,-,rfl⟩ := List.mem_map.mp hp
      rfl
    · split at hp
      · cases List.mem_singleton.mp hp
        rfl
      · cases hp
  · split at hp
    · cases List.mem_singleton.mp hp
      rfl
    · cases hp

end MusicState

namespace TuneReading

variable {r r' : TuneReading}

/-- Whether a line with these tokens is read as music. -/
def isMusic (r : TuneReading) : List Token → Bool
  | [] => false
  | first :: rest =>
    !Token.isLineKind first.kind && !(first :: rest).all (·.kind == .space) &&
      r.settings.stage = .body

/-- The end of a line, if it is a line of music. -/
def lineEnd? (r : TuneReading) (line : Nat × Text) : Option LineEnd :=
  let tokens := Token.tokenize line.2 line.1
  if r.isMusic tokens then
    (r.beginMusic.readTokens tokens).toOption.map fun next =>
      ⟨line.1,next.music.openProblems,isContinued tokens⟩
  else none

/-- The ends of all lines of music. -/
def lineEnds (r : TuneReading) : List (Nat × Text) → List LineEnd
  | [] => []
  | line :: rest =>
    (r.lineEnd? line).toList ++
      (r.readLine line.2 line.1).toOption.elim [] fun next => next.lineEnds rest

/-! ## What is reported of open contexts -/

/-- All that was reported of what lines have left open. -/
def leftOpen (r : TuneReading) : List Diagnostic := r.diagnostics.filter Diagnostic.isLeftOpen

theorem leftOpen_report {ds : List Diagnostic} (h : ∀ d ∈ ds, d.isLeftOpen = false) :
    (r.report ds).leftOpen = r.leftOpen := by
  have hds : ds.filter Diagnostic.isLeftOpen = [] :=
    List.filter_eq_nil_iff.mpr fun d hd => by simp [h d hd]
  rw [leftOpen, report, List.filter_append, hds, List.append_nil]
  rfl

theorem isLeftOpen_applyField {s : FieldState} {token : Token} {d : Diagnostic}
    (h : (s.applyField token).2 = .error d) : d.isLeftOpen = false := by
  obtain ⟨p,rfl⟩ := FieldState.metadata_of_applyField h
  rfl

/-- Fields neither report nor close anything that is open. -/
theorem readField_ends (r : TuneReading) (token : Token) :
    (r.readField token).leftOpen = r.leftOpen ∧
      (r.readField token).music.openProblems = r.music.openProblems := by
  unfold readField
  dsimp only
  split
  · exact ⟨rfl,rfl⟩
  · exact ⟨rfl,rfl⟩
  · next d hd =>
    refine ⟨leftOpen_report fun d' hd' => ?_,rfl⟩
    rw [List.mem_singleton.mp hd']
    exact isLeftOpen_applyField hd

theorem readDirective_ends (r : TuneReading) (text : Text) (line : Nat) :
    (r.readDirective text line).leftOpen = r.leftOpen ∧
      (r.readDirective text line).music.openProblems = r.music.openProblems := by
  refine ⟨leftOpen_report fun d hd => ?_,rfl⟩
  split at hd
  · rw [List.mem_singleton.mp hd]
    rfl
  · cases hd
  · cases hd

theorem leftOpen_readToken {token : Token} (hr : r.readToken token = .ok r') :
    r'.leftOpen = r.leftOpen := by
  by_cases hkind : ∃ name, token.kind = .inlineField name
  · obtain ⟨name,hkind⟩ := hkind
    rw [readToken, hkind] at hr
    cases hr
    exact (r.readField_ends token).1
  · rw [readToken_eq r fun name hname => hkind ⟨name,hname⟩] at hr
    cases hhandle : r.music.handle token r.settings.context with
    | error e =>
      rw [hhandle] at hr
      cases hr
    | ok p =>
      rw [hhandle] at hr
      cases hr
      refine leftOpen_report fun d hd => ?_
      obtain ⟨problem,-,rfl⟩ := List.mem_map.mp hd
      rfl

/-- The tokens of a line report nothing that is open; only its end does. -/
theorem leftOpen_readTokens {tokens : List Token} (hr : r.readTokens tokens = .ok r') :
    r'.leftOpen = r.leftOpen := by
  induction tokens generalizing r with
  | nil =>
    cases hr
    rfl
  | cons token rest ih =>
    obtain ⟨next,hnext,hrest⟩ := exists_of_bind_ok hr
    exact (ih hrest).trans (leftOpen_readToken hnext)

theorem leftOpen_endLine (r : TuneReading) (line : Nat) :
    (r.endLine line).leftOpen =
      r.leftOpen ++ r.music.openProblems.map (Diagnostic.structural line) := by
  have hall : (r.music.openProblems.map (Diagnostic.structural line)).filter
      Diagnostic.isLeftOpen = r.music.openProblems.map (Diagnostic.structural line) := by
    refine List.filter_eq_self.mpr fun d hd => ?_
    obtain ⟨p,hp,rfl⟩ := List.mem_map.mp hd
    exact r.music.isLeftOpen_openProblems p hp
  rw [leftOpen, endLine, report, List.filter_append, hall]
  rfl

theorem openProblems_endLine (r : TuneReading) (line : Nat) :
    (r.endLine line).music.openProblems = [] := rfl

/-! ## Lines -/

theorem isMusic_of_passed (r : TuneReading) {tokens : List Token} (hpassed : ∀ first ∈ tokens.head?,
    first.kind = .comment ∨ tokens.all (·.kind == .space) = true) : r.isMusic tokens = false := by
  cases tokens with
  | nil => rfl
  | cons first rest =>
    rcases hpassed first rfl with hcomment | hblank
    · rw [isMusic, hcomment]
      rfl
    · rw [isMusic, hblank, Bool.not_true, Bool.and_false, Bool.false_and]

theorem ends_of_not_isMusic {text : Text} {line : Nat}
    (hmusic : r.isMusic (Token.tokenize text line) = false) (hopen : r'.leftOpen = r.leftOpen)
    (hkept : r'.music.openProblems = r.music.openProblems) :
    r'.leftOpen = r.leftOpen ++ (r.lineEnd? (line,text)).toList.flatMap LineEnd.reports ∧
      r'.music.openProblems =
        (r.lineEnd? (line,text)).elim r.music.openProblems LineEnd.kept := by
  have hnone : r.lineEnd? (line,text) = none := if_neg (Bool.eq_false_iff.mp hmusic)
  rw [hnone, Option.toList_none, List.flatMap_nil, List.append_nil]
  exact ⟨hopen,hkept⟩

theorem ends_of_isMusic {text : Text} {line : Nat} {next : TuneReading}
    (hmusic : r.isMusic (Token.tokenize text line) = true)
    (hnext : r.beginMusic.readTokens (Token.tokenize text line) = .ok next) :
    let after := if isContinued (Token.tokenize text line) then next else next.endLine line
    after.leftOpen = r.leftOpen ++ (r.lineEnd? (line,text)).toList.flatMap LineEnd.reports ∧
      after.music.openProblems =
        (r.lineEnd? (line,text)).elim r.music.openProblems LineEnd.kept := by
  intro after
  have hopen : next.leftOpen = r.leftOpen := leftOpen_readTokens (r := r.beginMusic) hnext
  have hline : r.lineEnd? (line,text) =
      some ⟨line,next.music.openProblems,isContinued (Token.tokenize text line)⟩ := by
    unfold lineEnd?
    dsimp only
    rw [if_pos hmusic, hnext]
    rfl
  rw [hline]
  cases hcontinued : isContinued (Token.tokenize text line) with
  | true => simp [after, hcontinued, LineEnd.reports, LineEnd.kept, hopen]
  | false =>
    simp [after, hcontinued, LineEnd.reports, LineEnd.kept, leftOpen_endLine, hopen,
      openProblems_endLine]

/-- A line of music reports what its end reports and keeps what its end keeps, and any other line
does neither. -/
theorem readLine_ends {text : Text} {line : Nat} (hr : r.readLine text line = .ok r') :
    r'.leftOpen = r.leftOpen ++ (r.lineEnd? (line,text)).toList.flatMap LineEnd.reports ∧
      r'.music.openProblems =
        (r.lineEnd? (line,text)).elim r.music.openProblems LineEnd.kept := by
  have hcourse := course_of_readLine hr
  generalize htokens : Token.tokenize text line = tokens at hcourse
  cases hcourse with
  | @field first rest name hkind =>
    obtain ⟨hopen,hmusic⟩ := r.readField_ends first
    refine ends_of_not_isMusic ?_ hopen hmusic
    rw [htokens, isMusic, hkind]
    rfl
  | @directive first rest hkind =>
    obtain ⟨hopen,hmusic⟩ := r.readDirective_ends first.text line
    refine ends_of_not_isMusic ?_ hopen hmusic
    rw [htokens, isMusic, hkind]
    rfl
  | passed hpassed =>
    refine ends_of_not_isMusic ?_ rfl rfl
    rw [htokens]
    exact isMusic_of_passed r hpassed
  | @early first rest hkind hsolid hstage =>
    refine ends_of_not_isMusic ?_ (leftOpen_report (List.forall_mem_singleton.mpr rfl)) rfl
    rw [htokens, isMusic, hstage]
    exact Bool.and_false _
  | @music first rest next hkind hsolid hstage hread =>
    have hmusic : r.isMusic (first :: rest) = true := by
      rw [isMusic, hkind, hsolid, hstage]
      rfl
    obtain ⟨next,hnext,hend⟩ := exists_of_bind_ok hread
    cases hend
    rw [← htokens] at hmusic hnext ⊢
    exact ends_of_isMusic hmusic hnext

/-- Over any lines, what is reported of open contexts is what the ends of the lines of music
report, and what stays open is what the last of them keeps. -/
theorem readLines_ends {lines : List (Nat × Text)} (hr : r.readLines lines = .ok r') :
    r'.leftOpen = r.leftOpen ++ (r.lineEnds lines).flatMap LineEnd.reports ∧
      r'.music.openProblems =
        (r.lineEnds lines).getLast?.elim r.music.openProblems LineEnd.kept := by
  induction lines generalizing r with
  | nil =>
    cases hr
    simp [lineEnds]
  | cons line rest ih =>
    obtain ⟨next,hnext,hrest⟩ := exists_of_bind_ok hr
    obtain ⟨hreported,hkept⟩ := readLine_ends hnext
    obtain ⟨hreported',hkept'⟩ := ih hrest
    rw [lineEnds, hnext]
    constructor
    · rw [hreported', hreported]
      simp [Except.toOption]
    · rw [hkept', hkept]
      simp only [Except.toOption, Option.elim_some, List.getLast?_append]
      cases (next.lineEnds rest).getLast? with
      | some e => rfl
      | none => cases r.lineEnd? line <;> rfl

/-! ## Finishing -/

theorem isLeftOpen_assemble {t : Tune Float} {sections : List (Section Float)} {line : Nat} :
    ∀ d ∈ (t.assemble implicitVoice sections line).2, d.isLeftOpen = false := by
  intro d hd
  obtain ⟨label,rfl⟩ := Tune.undefinedPart_of_assemble d hd
  rfl

/-- However the lines follow one another, a finished tune has just these reports of what was left
open: for every line of music that does not go on in the next one, one for each tuplet, grace group
and chord that is open at its end. What is open behind the last line is what the last line of music
keeps because it goes on, and finishing reports none of it. -/
theorem finish_leftOpen {hasHeader : Bool} {lines : List (Nat × Text)}
    (h : (initial hasHeader).readLines lines = .ok r) :
    r.finish.diagnostics.filter Diagnostic.isLeftOpen =
        ((initial hasHeader).lineEnds lines).flatMap LineEnd.reports ∧
      r.music.openProblems =
        ((initial hasHeader).lineEnds lines).getLast?.elim [] LineEnd.kept ∧
      ((∀ p ∈ r.music.openProblems, ∃ line,
          .structural line p ∈ r.finish.diagnostics.drop r.diagnostics.length) ↔
        ∀ e ∈ ((initial hasHeader).lineEnds lines).getLast?, e.continued = true → e.left = []) := by
  obtain ⟨hreported,hkept⟩ := readLines_ends h
  have hdiagnostics : ∃ problem : Option Diagnostic, (∀ d ∈ problem, d.isLeftOpen = false) ∧
      r.finish.diagnostics = r.diagnostics ++ problem.toList :=
    ⟨_,isLeftOpen_assemble,rfl⟩
  obtain ⟨problem,hproblem,hfinish⟩ := hdiagnostics
  have hlate : ∀ d ∈ problem.toList, d.isLeftOpen = false := fun d hd =>
    hproblem d (Option.mem_toList.mp hd)
  refine ⟨?_,hkept,?_⟩
  · have hnone : problem.toList.filter Diagnostic.isLeftOpen = [] :=
      List.filter_eq_nil_iff.mpr fun d hd => by simp [hlate d hd]
    rw [hfinish, List.filter_append, hnone, List.append_nil]
    exact hreported
  · rw [hfinish, List.drop_left, hkept]
    -- what finishing reports is none of what can be left open
    constructor
    · intro hall e he hcontinued
      rw [he, Option.elim_some, LineEnd.kept, if_pos hcontinued] at hkept hall
      refine List.eq_nil_iff_forall_not_mem.mpr fun p hp => ?_
      obtain ⟨line,hline⟩ := hall p hp
      have hopen := r.music.isLeftOpen_openProblems p (hkept ▸ hp)
      exact absurd ((hlate _ hline).symm.trans hopen) (by decide)
    · intro hall p hp
      cases hlast : ((initial hasHeader).lineEnds lines).getLast? with
      | none =>
        rw [hlast] at hp
        cases hp
      | some e =>
        rw [hlast, Option.elim_some, LineEnd.kept] at hp
        split at hp
        · next hcontinued =>
          rw [hall e hlast hcontinued] at hp
          cases hp
        · cases hp

/-- A tuplet of three notes with the first two of them, on a line that goes on. -/
def openTriplet : List (Nat × Text) :=
  [(1,"X:1".toList), (2,"L:1/4".toList), (3,"K:C".toList), (4,"(3CD\\".toList)]

/-- The next line brings the third note and leaves a chord open, which it reports. -/
theorem finish_leftOpen_completed :
    ∃ r, (initial true).readLines (openTriplet ++ [(5,"E [C".toList)]) = .ok r ∧
      (r.finish.diagnostics.filter Diagnostic.isLeftOpen).map Diagnostic.message =
        ["Structural error at line 5: Unterminated chord '['"] ∧
      r.music.openProblems = [] := by
  have hevaluated :
      ((initial true).readLines (openTriplet ++ [(5,"E [C".toList)])).toOption.map (fun _ =>
        let ends := (initial true).lineEnds (openTriplet ++ [(5,"E [C".toList)])
        ((ends.flatMap LineEnd.reports).map Diagnostic.message,ends.map (·.continued),
          (ends.getLast?.elim [] LineEnd.kept).isEmpty)) =
      some (["Structural error at line 5: Unterminated chord '['"],[true, false],true) := by
    decide +kernel
  obtain ⟨r,hread,hvalue⟩ := exists_of_toOption_map hevaluated
  simp only [Prod.mk.injEq, List.isEmpty_iff] at hvalue
  obtain ⟨hmessages,-,hnone⟩ := hvalue
  obtain ⟨hreported,hkept,-⟩ := finish_leftOpen hread
  exact ⟨r,hread,by rw [hreported, hmessages],hkept.trans hnone⟩

/-- Where the tune ends with that line, the third note is missed by nobody. -/
theorem finish_leftOpen_unreported :
    ∃ r, (initial true).readLines openTriplet = .ok r ∧
      r.music.openProblems.map StructureProblem.message =
        ["Tuplet (3 not completed: 1 note(s) missing"] ∧
      r.finish.diagnostics = [] ∧ r.finish.isComplete = true := by
  have hevaluated : ((initial true).readLines openTriplet).toOption.map (fun r =>
      (r.music.openProblems.map StructureProblem.message,r.finish.isComplete)) =
      some (["Tuplet (3 not completed: 1 note(s) missing"],true) := by
    decide +kernel
  obtain ⟨r,hread,hvalue⟩ := exists_of_toOption_map hevaluated
  obtain ⟨hopen,hcomplete⟩ := Prod.mk.inj hvalue
  exact ⟨r,hread,hopen,List.isEmpty_iff.mp hcomplete,hcomplete⟩

end TuneReading
end AbcTune
