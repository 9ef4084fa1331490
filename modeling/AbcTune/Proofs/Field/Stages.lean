import AbcTune.Proofs.Field.Rejected

/-! # The end of the header

The first key field that is applied without fault ends the header, and the header never comes back.
From then on what it says of the tune stays as it is, whatever fields and directives follow; and
from the beginning of the music on so does the tempo.
-/
namespace AbcTune

/-- What may happen to the settings of a tune. -/
inductive FieldMove where
  | call (c : FieldCall)
  | beginMusic

/-- What the header says for good. -/
structure HeaderValues where
  key : Key
  meter : Meter
  unitLength : Float
  partSequence : Option (List Char)
  sequenceLine : Option Nat

namespace FieldState

def headerValues (s : FieldState) : HeaderValues where
  key := s.heading.key
  meter := s.heading.meter
  unitLength := s.heading.unitLength
  partSequence := s.heading.partSequence
  sequenceLine := s.sequenceLine

/-- The state before any field, of a tune and voices that are given. -/
def start (stage : Stage) (heading : Heading Float) (voices : VoiceTable Float) : FieldState :=
  { FieldSettings.initial stage heading.unitLength with heading, voices }

def move (s : FieldState) : FieldMove → FieldState
  | .call c => (s.call c).1
  | .beginMusic => { s with toFieldSettings := s.beginMusic }

def run (s : FieldState) (moves : List FieldMove) : FieldState := moves.foldl move s

/-- A key field is applied without fault, on a line of its own or inline. -/
def AppliesKey (s : FieldState) : FieldMove → Prop
  | .call (.field token) =>
    (token.kind = .field 'K' ∨ token.kind = .inlineField 'K') ∧ (s.call (.field token)).2 = none
  | _ => False

/-! ## Single fields -/

/-- A call leads from one state to another, of the given stage, and leaves what the header and the
music have settled. -/
structure Reaches (s : FieldState) (stage : Stage) (s' : FieldState) : Prop where
  stage_eq : s'.stage = stage
  musicStarted : s'.musicStarted = s.musicStarted
  values : s.stage = .body → s'.headerValues = s.headerValues
  tempo : s.musicStarted = true → s'.heading.tempo = s.heading.tempo

/-- The stage stays as well. -/
abbrev Retains (s s' : FieldState) : Prop := s.Reaches s.stage s'

variable {s s' : FieldState}

theorem retains_self (s : FieldState) : s.Retains s := ⟨rfl,rfl,fun _ => rfl,fun _ => rfl⟩

theorem retains_setVoices (s : FieldState) (voices : VoiceTable Float) :
    s.Retains { s with voices } := ⟨rfl,rfl,fun _ => rfl,fun _ => rfl⟩

theorem retains_setContext (s : FieldState) (context : MusicContext Float) :
    s.Retains { s with context } := ⟨rfl,rfl,fun _ => rfl,fun _ => rfl⟩

theorem Retains.trans (h : s.Retains s') {stage : Stage} {s'' : FieldState}
    (h' : s'.Reaches stage s'') : s.Reaches stage s'' where
  stage_eq := h'.stage_eq
  musicStarted := h'.musicStarted.trans h.musicStarted
  values hbody := (h'.values (h.stage_eq.trans hbody)).trans (h.values hbody)
  tempo hstarted := (h'.tempo (h.musicStarted.trans hstarted)).trans (h.tempo hstarted)

/-- In the body a change of what the header says is passed over. -/
theorem retains_mapHeader (s : FieldState) (context : MusicContext Float)
    {f : Heading Float → Heading Float} (hf : ∀ h, (f h).tempo = h.tempo) :
    s.Retains ({ s with context }.mapHeader f) := by
  unfold mapHeader
  split
  · next hheader =>
    refine ⟨rfl,rfl,fun hbody => ?_,fun _ => hf s.heading⟩
    exact absurd (hheader.symm.trans hbody) (by decide)
  · exact s.retains_setContext _

/-- What has nothing to do with how the tune is played may be noted at any time. -/
theorem retains_noted (s : FieldState) {f : Heading Float → Heading Float}
    (hplays : ∀ h : Heading Float, h.PlaysAs (f h)) : s.Retains (s.mapHeading f) := by
  obtain ⟨hkey,hmeter,hunit,htempo,hparts⟩ := hplays s.heading
  refine ⟨rfl,rfl,fun _ => ?_,fun _ => htempo⟩
  simp only [headerValues, mapHeading, hkey, hmeter, hunit, hparts]

/-- Whatever a field other than the key says, the header goes on, or what it said stays. -/
theorem retains_applyNamed (s : FieldState) {name : Char} (hname : name ≠ 'K') (token : Token) :
    s.Retains (s.applyNamed name token).1 := by
  generalize hp : s.applyNamed name token = p
  cases course_of_applyNamed hp with
  | rejected | lateTempo | part => exact s.retains_self
  | noted f _ hplays => exact s.retains_noted hplays
  | meter | unitLength => exact s.retains_mapHeader _ fun _ => rfl
  | tempo tempo _ hwaiting =>
    refine ⟨rfl,rfl,fun _ => rfl,fun hstarted => ?_⟩
    cases hwaiting.symm.trans hstarted
  | sequence labels _ hheader =>
    refine ⟨rfl,rfl,fun hbody => ?_,fun _ => rfl⟩
    cases hheader.symm.trans hbody
  | voice | switched => exact s.retains_setVoices _
  | key hkey => exact absurd hkey hname

theorem retains_applyDirective (s : FieldState) (text : Text) (line : Nat) :
    s.Retains (s.applyDirective text line).1 := by
  rcases s.applyDirective_cases text line with ⟨d,heq⟩ | ⟨voices,-,heq⟩
  · rw [heq]
    exact s.retains_self
  · rw [heq]
    exact s.retains_setVoices voices

/-! ## Keys -/

theorem reaches_endHeader (s : FieldState) : s.Reaches .body s.endHeader := by
  unfold endHeader
  split
  · next hbody => exact ⟨hbody,rfl,fun _ => rfl,fun _ => rfl⟩
  · next hheader =>
    exact ⟨rfl,rfl,fun hbody => absurd (hheader.symm.trans hbody) (by decide),fun _ => rfl⟩

/-- A key field ends the header just if nothing is wrong with it. -/
theorem applyKey_reaches (s : FieldState) (token : Token) :
    ((∃ p, (s.applyKey token).2 = .error p) ∧ s.Retains (s.applyKey token).1) ∨
      ((s.applyKey token).2 = .ok .none ∧ s.Reaches .body (s.applyKey token).1) := by
  generalize hp : s.applyKey token = p
  cases course_of_applyKey hp with
  | unknown problem => exact .inl ⟨⟨problem,rfl⟩,s.retains_self⟩
  | stray key problem => exact .inl ⟨⟨.attribute problem,rfl⟩,s.retains_setContext _⟩
  | applied key a voices =>
    have hkey := s.retains_setContext { s.context with key }
    exact .inr ⟨rfl,hkey.trans ((retains_setVoices _ voices).trans (reaches_endHeader _))⟩

/-! ## Runs -/

theorem call_reaches (s : FieldState) (c : FieldCall) :
    (¬s.AppliesKey (.call c) ∧ s.Retains (s.call c).1) ∨
      (s.AppliesKey (.call c) ∧ s.Reaches .body (s.call c).1) := by
  cases c with
  | directive text line => exact .inl ⟨id,s.retains_applyDirective text line⟩
  | field token =>
    by_cases hkey : token.kind = .field 'K' ∨ token.kind = .inlineField 'K'
    · have hcall := s.call_field hkey
      have hnamed : s.applyNamed 'K' token = s.applyKey token := rfl
      rw [hnamed] at hcall
      rcases s.applyKey_reaches token with ⟨⟨p,hp⟩,hretains⟩ | ⟨hok,hends⟩
      · rw [hp] at hcall
        refine .inl ⟨fun h => ?_,hcall ▸ hretains⟩
        rw [AppliesKey, hcall] at h
        exact Option.some_ne_none _ h.2
      · rw [hok] at hcall
        exact .inr ⟨⟨hkey,hcall ▸ rfl⟩,hcall ▸ hends⟩
    · refine .inl ⟨fun h => hkey h.1,?_⟩
      by_cases hname : ∃ name, token.kind = .field name ∨ token.kind = .inlineField name
      · obtain ⟨name,hkind⟩ := hname
        have hother : name ≠ 'K' := fun h => hkey (h ▸ hkind)
        rw [call_field hkind]
        exact s.retains_applyNamed hother token
      · rw [call_of_not_field hname]
        exact s.retains_self

/-- A move ends the header just if it is a key field that is applied. In the body it leaves what
the header has said, and once music has begun it leaves the tempo. -/
theorem move_settles (s : FieldState) (m : FieldMove) :
    ((s.move m).stage = .header ↔ s.stage = .header ∧ ¬s.AppliesKey m) ∧
      (s.stage = .body → (s.move m).headerValues = s.headerValues) ∧
      (s.musicStarted = true →
        (s.move m).musicStarted = true ∧ (s.move m).heading.tempo = s.heading.tempo) := by
  cases m with
  | beginMusic =>
    exact ⟨⟨fun h => ⟨h,id⟩,And.left⟩,fun _ => rfl,fun _ => ⟨rfl,rfl⟩⟩
  | call c =>
    rcases s.call_reaches c with ⟨hkey,h⟩ | ⟨hkey,h⟩
    · refine ⟨?_,h.values,fun hstarted => ⟨h.musicStarted.trans hstarted,h.tempo hstarted⟩⟩
      constructor
      · exact fun hheader => ⟨h.stage_eq.symm.trans hheader,hkey⟩
      · exact fun hheader => h.stage_eq.trans hheader.1
    · refine ⟨?_,h.values,fun hstarted => ⟨h.musicStarted.trans hstarted,h.tempo hstarted⟩⟩
      have hbody : (s.move (.call c)).stage = .body := h.stage_eq
      rw [hbody]
      exact ⟨nofun,fun hheader => absurd hkey hheader.2⟩

theorem stage_run (s : FieldState) (moves : List FieldMove) :
    (s.run moves).stage = .header ↔ s.stage = .header ∧
      ∀ before m after, moves = before ++ m :: after → ¬(s.run before).AppliesKey m := by
  induction moves generalizing s with
  | nil =>
    refine ⟨fun h => ⟨h,fun before m after hsplit => ?_⟩,And.left⟩
    cases before <;> cases hsplit
  | cons first rest ih =>
    refine (ih (s.move first)).trans ?_
    rw [(s.move_settles first).1]
    constructor
    · rintro ⟨⟨hheader,hfirst⟩,hrest⟩
      refine ⟨hheader,fun before m after hsplit => ?_⟩
      cases before with
      | nil =>
        cases hsplit
        exact hfirst
      | cons _ before =>
        cases hsplit
        exact hrest before m after rfl
    · rintro ⟨hheader,hall⟩
      refine ⟨⟨hheader,hall [] first rest rfl⟩,fun before m after hsplit => ?_⟩
      exact hall (first :: before) m after (congrArg _ hsplit)

theorem values_run (h : s.stage = .body) (moves : List FieldMove) :
    (s.run moves).stage = .body ∧ (s.run moves).headerValues = s.headerValues := by
  induction moves generalizing s with
  | nil => exact ⟨h,rfl⟩
  | cons first rest ih =>
    obtain ⟨hstage,hvalues,-⟩ := s.move_settles first
    have hbody : (s.move first).stage = .body := by
      cases hnext : (s.move first).stage with
      | body => rfl
      | header => exact absurd (h.symm.trans (hstage.mp hnext).1) (by decide)
    obtain ⟨hrest,hkept⟩ := ih hbody
    exact ⟨hrest,hkept.trans (hvalues h)⟩

theorem tempo_run (h : s.musicStarted = true) (moves : List FieldMove) :
    (s.run moves).musicStarted = true ∧ (s.run moves).heading.tempo = s.heading.tempo := by
  induction moves generalizing s with
  | nil => exact ⟨h,rfl⟩
  | cons first rest ih =>
    obtain ⟨-,-,htempo⟩ := s.move_settles first
    obtain ⟨hstarted,hsame⟩ := htempo h
    obtain ⟨hrest,hkept⟩ := ih hstarted
    exact ⟨hrest,hkept.trans hsame⟩

theorem musicStarted_run {moves : List FieldMove} (h : .beginMusic ∈ moves) (s : FieldState) :
    (s.run moves).musicStarted = true := by
  obtain ⟨before,after,rfl⟩ := List.append_of_mem h
  have hrun : s.run (before ++ .beginMusic :: after) =
      ((s.run before).move .beginMusic).run after := List.foldl_append
  rw [hrun]
  exact (tempo_run (s := (s.run before).move .beginMusic) rfl after).1

/-- Reading is in the header up to the first key field that is applied without fault, and in the
body ever after. In the body no call changes what the header has said of the key, the meter, the
unit length and the order of the parts, and once music has begun none changes the tempo. -/
theorem run_settled (stage : Stage) (heading : Heading Float) (voices : VoiceTable Float)
    (moves : List FieldMove) :
    let s := (start stage heading voices).run moves
    (s.stage = .header ↔ stage = .header ∧ ∀ before m after, moves = before ++ m :: after →
      ¬((start stage heading voices).run before).AppliesKey m) ∧
    ∀ more, (s.stage = .body →
        (s.run more).stage = .body ∧ (s.run more).headerValues = s.headerValues) ∧
      (.beginMusic ∈ moves → (s.run more).heading.tempo = s.heading.tempo) := by
  intro s
  refine ⟨stage_run _ moves,fun more => ⟨fun hbody => ?_,fun hmusic => ?_⟩⟩
  · exact values_run hbody more
  · exact (tempo_run (musicStarted_run hmusic _) more).2

/-- A key with a transposition out of range leaves the header open, and the one after it ends it.
From then on an inline meter and a tempo field change nothing of the tune. -/
theorem run_settled_inline :
    ∃ header body : List FieldMove,
      (beforeFields.run header).stage = .body ∧
      (beforeFields.run header).heading.key.fifths = 1 ∧
      .beginMusic ∈ header ∧
      (beforeFields.run (header ++ body)).context.meter.beats = 6 ∧
      ((beforeFields.run header).run body).headerValues = (beforeFields.run header).headerValues ∧
      ((beforeFields.run header).run body).heading.tempo =
        (beforeFields.run header).heading.tempo := by
  let fields (t : String) : List FieldMove :=
    (Token.tokenize t.toList 1).map fun token => .call (.field token)
  let header := fields "K:D transpose=200" ++ fields "K:G" ++ [.beginMusic]
  let body := fields "[M:6/8]" ++ fields "Q:90"
  have hheader : ((beforeFields.run header).stage,(beforeFields.run header).heading.key.fifths) =
      (.body,1) := by decide +kernel
  have hbody : (beforeFields.run (header ++ body)).context.meter.beats = 6 := by decide +kernel
  rw [Prod.mk.injEq] at hheader
  have hmusic : FieldMove.beginMusic ∈ header := List.mem_append_right _ List.mem_cons_self
  obtain ⟨-,hsettled⟩ := run_settled .header beforeFields.heading .empty header
  obtain ⟨hvalues,htempo⟩ := hsettled body
  exact ⟨header,body,hheader.1,hheader.2,hmusic,hbody,(hvalues hheader.1).2,htempo hmusic⟩

end FieldState
end AbcTune
