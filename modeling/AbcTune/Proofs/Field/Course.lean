import AbcTune.Field

/-! # What a field does

A field is rejected, or it notes something of the tune, sets the meter, the unit length, the tempo or
the order of the parts, starts a part, or defines or enters a voice. A key field changes the key,
gives settings to a voice and ends the header; where those settings are rejected, it changes the key
alone. What fields preserve follows case by case.
-/
namespace AbcTune

/-- The same is said of how a tune is played. -/
structure Heading.PlaysAs (h g : Heading Float) : Prop where
  key : g.key = h.key
  meter : g.meter = h.meter
  unitLength : g.unitLength = h.unitLength
  tempo : g.tempo = h.tempo
  partSequence : g.partSequence = h.partSequence

/-- Settings are given to the voice that they are for, or there are none. -/
def VoiceTable.Configures (voices next : VoiceTable Float) : Prop :=
  next = voices ∨ ∃ a, next = voices.ensureSettings.define voices.settingsVoice a

namespace FieldState

/-- The key that a key field names. -/
def namedKey? (token : Token) : Option Key :=
  Key.read? (Text.join [' '] (splitKeyWords (plainWords token.text)).1)

/-- The settings behind a key. -/
def keySettings (token : Token) : Except AttributeProblem Attributes :=
  Attributes.read token.properties (splitKeyWords (plainWords token.text)).2

/-- What a key field can do to a state. -/
inductive KeyCourse (s : FieldState) (token : Token) : Applied → Prop where
  | unknown (problem : FieldProblem) (hkey : namedKey? token = none) :
      KeyCourse s token (s.reject problem)
  | stray (key : Key) (problem : AttributeProblem) (hkey : namedKey? token = some key)
      (hsettings : keySettings token = .error problem) :
      KeyCourse s token
        ({ s with context := { s.context with key } }.reject (.attribute problem))
  | applied (key : Key) (a : Attributes) (voices : VoiceTable Float)
      (hkey : namedKey? token = some key) (hsettings : keySettings token = .ok a)
      (hvoices : s.voices.Configures voices) :
      KeyCourse s token { s with context := { s.context with key }, voices }.endHeader.accept

/-- What a field of a name can do to a state. -/
inductive Course (s : FieldState) (name : Char) (token : Token) : Applied → Prop where
  | rejected (problem : FieldProblem) (hname : name ∈ ['X', 'M', 'L', 'Q', 'P', 'V']) :
      Course s name token (s.reject problem)
  | noted (f : Heading Float → Heading Float) (hname : name ∉ ['M', 'L', 'Q', 'P', 'V', 'K'])
      (hplays : ∀ h : Heading Float, h.PlaysAs (f h))
      (htitles : ∀ h, (f h).titles =
        h.titles ++ if name = 'T' then [String.ofList (Text.trim token.text)] else []) :
      Course s name token (s.mapHeading f).accept
  | meter (meter : Meter) (hname : name = 'M')
      (hread : Meter.read? (Text.trim token.text) = some meter) :
      Course s name token
        ({ s with context := { s.context with meter } }.mapHeader ({ · with meter })).accept
  | unitLength (unitLength : Float) (hname : name = 'L')
      (hread : readFraction? (Text.trim token.text) = some unitLength) :
      Course s name token
        ({ s with context := { s.context with unitLength, unitStated := true } }.mapHeader
          ({ · with unitLength })).accept
  | tempo (tempo : Tempo Float) (hname : name = 'Q') (hwaiting : s.musicStarted = false)
      (hread : Tempo.read? (Text.trim token.text) s.context.meter.beatUnit = some tempo) :
      Course s name token (s.mapHeading ({ · with tempo })).accept
  | lateTempo (hname : name = 'Q') (hstarted : s.musicStarted = true) :
      Course s name token s.accept
  | sequence (labels : List Char) (hname : name = 'P') (hstage : s.stage = .header)
      (hread : PartSequence.read (Text.trim token.text) = .ok labels) :
      Course s name token
        ({ s with sequenceLine := some token.line }.mapHeading
          ({ · with partSequence := some labels })).accept
  | part (label : Char) (hname : name = 'P') (hstage : s.stage = .body)
      (hlabel : (Text.trim token.text).head? = some label ∧ label.isUpper = true) :
      Course s name token (s, .ok (.partStarted label))
  | voice (id : String) (a : Attributes) (hname : name = 'V')
      (hearly : s.stage = .header ∨ s.musicStarted = false) :
      Course s name token { s with voices := s.voices.define id a }.accept
  | switched (id : String) (voices : VoiceTable Float) (hname : name = 'V')
      (hstage : s.stage ≠ .header)
      (hvoices : voices = s.voices ∨ ∃ a, voices = s.voices.define id a) :
      Course s name token ({ s with voices := voices.switchTo id }, .ok (.switched id))
  | key {p : Applied} (hname : name = 'K') (hkey : s.KeyCourse token p) : Course s name token p

variable {s : FieldState} {token : Token}

/-- The settings behind a key are rejected just where they cannot be read. -/
theorem applySettings_cases (s : FieldState) (pairs : List (Text × Text)) (flags : List Text) :
    (∃ a voices, Attributes.read pairs flags = .ok a ∧ s.voices.Configures voices ∧
      s.applySettings pairs flags = .ok { s with voices }) ∨
    ∃ problem, Attributes.read pairs flags = .error problem ∧
      s.applySettings pairs flags = .error (.attribute problem) := by
  unfold applySettings
  split
  · next hempty =>
    simp only [Bool.and_eq_true, List.isEmpty_iff] at hempty
    rw [hempty.1, hempty.2]
    exact .inl ⟨_,s.voices,rfl,.inl rfl,rfl⟩
  · cases hread : Attributes.read pairs flags with
    | error problem => exact .inr ⟨problem,rfl,rfl⟩
    | ok a => exact .inl ⟨a,_,rfl,.inr ⟨a,rfl⟩,rfl⟩

theorem course_of_applyKey {p : Applied} (h : s.applyKey token = p) : s.KeyCourse token p := by
  subst h
  unfold applyKey
  dsimp only
  split
  · next hkey => exact .unknown _ hkey
  · next key hkey =>
    rcases applySettings_cases { s with context := { s.context with key } } token.properties
      (splitKeyWords (plainWords token.text)).2 with
      ⟨a,voices,hread,hvoices,hsettings⟩ | ⟨problem,hread,hsettings⟩
    · rw [hsettings]
      exact .applied key a voices hkey hread hvoices
    · rw [hsettings]
      exact .stray key problem hkey hread

theorem course_applyVoice (s : FieldState) (token : Token) :
    s.Course 'V' token (s.applyVoice token) := by
  unfold applyVoice
  split
  · exact .rejected _ (by decide)
  · split
    · exact .rejected _ (by decide)
    · dsimp only
      split
      · exact .rejected _ (by decide)
      · next id _ _ a _ =>
        unfold enterVoice
        split
        · next hearly => exact .voice _ a rfl (hearly.imp_right fun h => by simpa using h.2)
        · next hlate =>
          refine .switched _ _ rfl (fun h => hlate (.inl h)) ?_
          split
          · exact .inr ⟨a,rfl⟩
          · exact .inl rfl

theorem course_applyPart (s : FieldState) (token : Token) :
    s.Course 'P' token (s.applyPart token.line (Text.trim token.text)) := by
  unfold applyPart
  split
  · next hheader =>
    split
    · next labels hread => exact .sequence labels rfl hheader hread
    · exact .rejected _ (by decide)
  · next hbody =>
    split
    · next label rest hvalue =>
      split
      · next hupper => exact .part label rfl hbody ⟨by rw [hvalue]; rfl,hupper⟩
      · exact .rejected _ (by decide)
    · exact .rejected _ (by decide)

theorem course_applyTempo (s : FieldState) (token : Token) :
    s.Course 'Q' token (s.applyTempo (Text.trim token.text)) := by
  unfold applyTempo
  split
  · next tempo hread =>
    split
    · next hstarted => exact .lateTempo rfl hstarted
    · next hwaiting => exact .tempo tempo rfl (by simpa using hwaiting) hread
  · exact .rejected _ (by decide)

/-- Notes have nothing to do with how the tune is played. -/
theorem course_noted {name : Char} (f : Heading Float → Heading Float)
    (hname : name ∉ ['T', 'M', 'L', 'Q', 'P', 'V', 'K']) (hplays : ∀ h : Heading Float, h.PlaysAs (f h))
    (htitles : ∀ h, (f h).titles = h.titles) : s.Course name token (s.mapHeading f).accept := by
  obtain ⟨hT,hother⟩ := not_or.mp (mt List.mem_cons.mpr hname)
  refine .noted f hother hplays fun h => ?_
  rw [if_neg hT, List.append_nil]
  exact htitles h

theorem course_applyNamed (s : FieldState) (name : Char) (token : Token) :
    s.Course name token (s.applyNamed name token) := by
  unfold applyNamed
  dsimp only
  split
  · unfold applyReference
    split
    · exact course_noted _ (by decide) (fun _ => ⟨rfl,rfl,rfl,rfl,rfl⟩) fun _ => rfl
    · exact .rejected _ (by decide)
  · exact .noted _ (by decide) (fun _ => ⟨rfl,rfl,rfl,rfl,rfl⟩) fun _ => rfl
  · unfold applyComposer
    split
    · exact course_noted _ (by decide) (fun _ => ⟨rfl,rfl,rfl,rfl,rfl⟩) fun _ => rfl
    · exact course_noted _ (by decide) (fun _ => ⟨rfl,rfl,rfl,rfl,rfl⟩) fun _ => rfl
  · unfold applyMeter
    split
    · next meter hread => exact .meter meter rfl hread
    · exact .rejected _ (by decide)
  · unfold applyUnitLength
    split
    · next unitLength hread => exact .unitLength unitLength rfl hread
    · exact .rejected _ (by decide)
  · exact course_applyTempo s token
  · exact .key rfl (course_of_applyKey rfl)
  · exact course_applyVoice s token
  · exact course_applyPart s token
  · exact course_noted _ (by decide) (fun _ => ⟨rfl,rfl,rfl,rfl,rfl⟩) fun _ => rfl
  · exact course_noted _ (by decide) (fun _ => ⟨rfl,rfl,rfl,rfl,rfl⟩) fun _ => rfl
  · next _ hT _ hM hL hQ hK hV hP _ _ =>
    have hname : name ∉ ['T', 'M', 'L', 'Q', 'P', 'V', 'K'] := by
      simp only [List.mem_cons, List.not_mem_nil, or_false, not_or]
      exact ⟨hT,hM,hL,hQ,hP,hV,hK⟩
    exact course_noted _ hname (fun _ => ⟨rfl,rfl,rfl,rfl,rfl⟩) fun _ => rfl

theorem course_of_applyNamed {name : Char} {p : Applied} (h : s.applyNamed name token = p) :
    s.Course name token p := h ▸ s.course_applyNamed name token

/-- A directive that is understood gives settings to the voice that they are for, or none; any
other changes nothing. -/
theorem applyDirective_cases (s : FieldState) (text : Text) (line : Nat) :
    (∃ d, s.applyDirective text line = (s,some d)) ∨
      ∃ voices, s.voices.Configures voices ∧
        s.applyDirective text line = ({ s with voices },none) := by
  unfold applyDirective
  split
  · exact .inl ⟨_,rfl⟩
  · exact .inr ⟨s.voices,.inl rfl,rfl⟩
  · next a _ => exact .inr ⟨_,.inr ⟨a,rfl⟩,rfl⟩

end FieldState
end AbcTune
