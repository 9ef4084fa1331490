import AbcTune.Proofs.Field.Course
import AbcTune.Proofs.Music.Plain

/-! # Fields of a header

The fields of a header define voices and settings but no music. The first key field that is
understood ends it; up to then no field asks for anything but a change of settings.
-/
namespace AbcTune

/-! ## Voices without notes -/

/-- Voices were defined, but none of them has been taken up. -/
structure VoiceTable.Fresh (t : VoiceTable Float) : Prop where
  active : t.active = none
  order : t.order.Nodup
  silent : ∀ v ∈ t.voices, v.notes = [] ∧ v.savedTime = 0.0

namespace VoiceTable

variable {t : VoiceTable Float}

theorem fresh_empty : (VoiceTable.empty : VoiceTable Float).Fresh :=
  ⟨rfl,List.nodup_nil,fun _ hv => absurd hv List.not_mem_nil⟩

theorem Fresh.each (h : t.Fresh) : t.Each fun v => v.notes = [] ∧ v.savedTime = 0.0 :=
  ⟨h.order,h.silent⟩

theorem Fresh.ensure (h : t.Fresh) (id : String) (a : Attributes) : (t.ensure id a).Fresh := by
  have heach := h.each.ensure (fun _ hnotes htime => ⟨hnotes,htime⟩) id a
  exact ⟨(active_ensure t id a).trans h.active,heach.order,heach.voices⟩

theorem Fresh.define (h : t.Fresh) (id : String) (a : Attributes) : (t.define id a).Fresh := by
  have heach := h.each.define (fun _ hnotes htime => ⟨hnotes,htime⟩) (fun _ _ hv => hv) id a
  exact ⟨(active_ensure t id a).trans h.active,heach.order,heach.voices⟩

theorem Fresh.ensureSettings (h : t.Fresh) : t.ensureSettings.Fresh := by
  unfold VoiceTable.ensureSettings
  split
  · exact h
  · exact h.define implicitVoice .none

theorem Fresh.configures (h : t.Fresh) {next : VoiceTable Float} (hnext : t.Configures next) :
    next.Fresh := by
  rcases hnext with rfl | ⟨a,rfl⟩
  · exact h
  · exact h.ensureSettings.define _ a

end VoiceTable

/-! ## Settings -/

theorem readNat?_le {most n : Nat} {t : Text} (h : Number.readNat? most t = some n) : n ≤ most := by
  unfold Number.readNat? at h
  exact of_decide_eq_true (Option.filter_eq_some_iff.mp h).2

/-- The numbers of a meter are positive, and small. -/
theorem Meter.read?_bounds {t : Text} {meter : Meter} (h : Meter.read? t = some meter) :
    (0 < meter.beats ∧ meter.beats ≤ 255) ∧ 0 < meter.beatType ∧ meter.beatType ≤ 255 := by
  unfold Meter.read? at h
  dsimp only at h
  split at h
  · obtain rfl := Option.some.inj h
    decide
  · obtain rfl := Option.some.inj h
    decide
  · obtain rfl := Option.some.inj h
    decide
  · obtain rfl := Option.some.inj h
    decide
  · simp only [Option.bind_eq_bind, Option.bind_eq_some_iff] at h
    obtain ⟨⟨above,below⟩,-,beats,-,beatType,hbelow,h⟩ := h
    split at h
    · cases h
    · next hbounds =>
      obtain rfl := Option.some.inj h
      have hle := readNat?_le hbelow
      simp only [Meter.most] at hbounds hle
      dsimp only
      omega

theorem readFraction?_pos {t : Text} {value : Float} (h : readFraction? t = some value) :
    (0.0 : Float) < value := by
  have hpositive (x : Float) (hx : (if 0.0 < x then some x else none) = some value) :
      (0.0 : Float) < value := by
    split at hx
    · next hpos => exact Option.some.inj hx ▸ hpos
    · cases hx
  simp only [readFraction?, Option.bind_eq_bind] at h
  split at h
  · simp only [Option.bind_eq_some_iff] at h
    obtain ⟨above,-,below,-,h⟩ := h
    split at h
    · cases h
    · exact hpositive (above / below) h
  · obtain ⟨x,-,hx⟩ := Option.bind_eq_some_iff.mp h
    exact hpositive x hx

theorem Meter.defaultUnitLength_pos (meter : Meter) :
    (0.0 : Float) < meter.defaultUnitLength := by
  unfold Meter.defaultUnitLength
  split
  · decide +kernel
  · decide +kernel

theorem MusicContext.sound_initial : (MusicContext.initial : MusicContext Float).Sound :=
  ⟨Meter.defaultUnitLength_pos .common,by decide,by decide⟩

/-! ## Fields before the music -/

namespace FieldState

/-- Settings that music can be read with, and voices that have none yet. -/
structure BeforeMusic (s : FieldState) : Prop where
  sound : s.context.Sound
  fresh : s.voices.Fresh

/-- A field was applied in a header and asks for nothing else. -/
structure StaysInHeader (p : Applied) : Prop where
  stage : p.1.stage = .header
  before : p.1.BeforeMusic
  noPart : ∀ label, p.2 ≠ .ok (.partStarted label)

variable {s s' : FieldState}

theorem BeforeMusic.accept (h : s.BeforeMusic) (hstage : s.stage = .header) :
    StaysInHeader s.accept := ⟨hstage,h,fun _ hpart => by cases hpart⟩

theorem BeforeMusic.reject (h : s.BeforeMusic) (hstage : s.stage = .header) (p : FieldProblem) :
    StaysInHeader (s.reject p) := ⟨hstage,h,fun _ hpart => by cases hpart⟩

theorem BeforeMusic.mapHeading (h : s.BeforeMusic) (f : Heading Float → Heading Float) :
    (s.mapHeading f).BeforeMusic := ⟨h.sound,h.fresh⟩

theorem mapHeader_of_header (hstage : s.stage = .header) (f : Heading Float → Heading Float) :
    s.mapHeader f = s.mapHeading f := by
  unfold mapHeader
  rw [hstage]

theorem BeforeMusic.setVoices (h : s.BeforeMusic) {voices : VoiceTable Float}
    (hvoices : voices.Fresh) : { s with voices }.BeforeMusic := ⟨h.sound,hvoices⟩

theorem BeforeMusic.setMeter (h : s.BeforeMusic) {value : Text} {meter : Meter}
    (hread : Meter.read? value = some meter) :
    { s with context := { s.context with meter } }.BeforeMusic :=
  have hbounds := Meter.read?_bounds hread
  ⟨⟨h.sound.unitLength,hbounds.1,hbounds.2⟩,h.fresh⟩

theorem BeforeMusic.setUnitLength (h : s.BeforeMusic) {value : Text} {unitLength : Float}
    (hread : readFraction? value = some unitLength) :
    { s with context := { s.context with unitLength, unitStated := true } }.BeforeMusic :=
  ⟨⟨readFraction?_pos hread,h.sound.beats,h.sound.beatType⟩,h.fresh⟩

theorem BeforeMusic.setKey (h : s.BeforeMusic) (key : Key) :
    { s with context := { s.context with key } }.BeforeMusic :=
  ⟨⟨h.sound.unitLength,h.sound.beats,h.sound.beatType⟩,h.fresh⟩

/-- A field other than the key only changes what is read before the music. -/
theorem BeforeMusic.applyNamed (h : s.BeforeMusic) (hstage : s.stage = .header) {name : Char}
    (hname : name ≠ 'K') (token : Token) : StaysInHeader (s.applyNamed name token) := by
  generalize hp : s.applyNamed name token = p
  cases course_of_applyNamed hp with
  | rejected problem => exact h.reject hstage problem
  | lateTempo => exact h.accept hstage
  | noted | tempo => exact (h.mapHeading _).accept hstage
  | meter meter _ hread =>
    have hheader := mapHeader_of_header (s := { s with context := { s.context with meter } }) hstage
    rw [hheader]
    exact ((h.setMeter hread).mapHeading _).accept hstage
  | unitLength unitLength _ hread =>
    have hheader := mapHeader_of_header (s := { s with
      context := { s.context with unitLength, unitStated := true } }) hstage
    rw [hheader]
    exact ((h.setUnitLength hread).mapHeading _).accept hstage
  | sequence labels => exact ⟨hstage,⟨h.sound,h.fresh⟩,nofun⟩
  | part label _ hbody => cases hstage.symm.trans hbody
  | voice id a => exact (h.setVoices (h.fresh.define id a)).accept hstage
  | switched id voices _ hbody => exact absurd hstage hbody
  | key hkey => exact absurd hkey hname

theorem BeforeMusic.applyDirective (h : s.BeforeMusic) (text : Text) (line : Nat) :
    (s.applyDirective text line).1.BeforeMusic ∧
      (s.applyDirective text line).1.stage = s.stage := by
  rcases s.applyDirective_cases text line with ⟨d,heq⟩ | ⟨voices,hvoices,heq⟩
  · rw [heq]
    exact ⟨h,rfl⟩
  · rw [heq]
    exact ⟨h.setVoices (h.fresh.configures hvoices),rfl⟩

/-! ## The end of a header -/

theorem BeforeMusic.endHeader (h : s.BeforeMusic) (hstage : s.stage = .header) :
    s.endHeader.BeforeMusic ∧ s.endHeader.stage = .body ∧
      s.endHeader.heading.key = s.endHeader.context.key := by
  unfold FieldState.endHeader
  rw [hstage]
  dsimp only
  split
  · exact ⟨⟨h.sound,h.fresh⟩,rfl,rfl⟩
  · exact ⟨⟨⟨Meter.defaultUnitLength_pos _,h.sound.beats,h.sound.beatType⟩,h.fresh⟩,rfl,rfl⟩

/-- A key field ends the header unless something is wrong with it. -/
theorem BeforeMusic.applyKey (h : s.BeforeMusic) (hstage : s.stage = .header) (token : Token) :
    (∃ problem, (s.applyKey token).2 = .error problem) ∨
      ((s.applyKey token).1.BeforeMusic ∧ (s.applyKey token).1.stage = .body ∧
        (s.applyKey token).1.heading.key = (s.applyKey token).1.context.key ∧
        (s.applyKey token).2 = .ok .none) := by
  generalize hp : s.applyKey token = p
  cases course_of_applyKey hp with
  | unknown problem => exact .inl ⟨problem,rfl⟩
  | stray key problem => exact .inl ⟨.attribute problem,rfl⟩
  | applied key a voices _ _ hvoices =>
    have hset := (h.setKey key).setVoices (h.fresh.configures hvoices)
    obtain ⟨hbefore,hbody,hkeys⟩ := hset.endHeader hstage
    exact .inr ⟨hbefore,hbody,hkeys,rfl⟩

end FieldState
end AbcTune
