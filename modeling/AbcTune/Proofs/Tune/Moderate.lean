import AbcTune.Proofs.Field.Course
import AbcTune.Proofs.Music.Moderate
import AbcTune.Proofs.Tune.Reading

/-! # Moderate tunes

The fields of a moderate tune set moderate numbers, so that its unit length and its tempo are finite
and positive. Read line by line, its music stays bounded for as long as nothing is wrong with it.
-/
namespace AbcTune

open Number

/-! ## Settings -/

/-- A heading that a tune can be played with. -/
structure Heading.Moderate (h : Heading Float) : Prop where
  unitLength : isModerate h.unitLength = true
  tempo : FinitePositive h.tempo.bpm
  parts : (h.partSequence.getD []).length ≤ mostParts

structure FieldSettings.Moderate (s : FieldSettings) : Prop where
  unitLength : isModerate s.context.unitLength = true
  beats : s.context.meter.beats ≤ 255
  beatType : 0 < s.context.meter.beatType ∧ s.context.meter.beatType ≤ 255
  heading : s.heading.Moderate

theorem FieldSettings.Moderate.context {s : FieldSettings} (h : s.Moderate) :
    s.context.Moderate := ⟨span_of_isModerate h.unitLength,h.beats,h.beatType⟩

theorem Meter.isModerate_defaultUnitLength (meter : Meter) :
    isModerate meter.defaultUnitLength = true := by
  unfold Meter.defaultUnitLength
  split
  · decide +kernel
  · decide +kernel

theorem finitePositive_standard : FinitePositive (Tempo.standard : Tempo Float).bpm :=
  (magnitude_of_isModerate (x := 120.0) (by decide +kernel)).finitePositive

theorem FieldSettings.moderate_initial (stage : Stage) :
    (FieldSettings.initial stage
      (MusicContext.initial : MusicContext Float).unitLength).Moderate where
  unitLength := Meter.isModerate_defaultUnitLength .common
  beats := (by decide : 4 ≤ 255)
  beatType := (by decide : 0 < 4 ∧ 4 ≤ 255)
  heading := ⟨Meter.isModerate_defaultUnitLength .common,finitePositive_standard,Nat.zero_le _⟩

theorem magnitude_beatUnit {meter : Meter}
    (h : 0 < meter.beatType ∧ meter.beatType ≤ 255) :
    Magnitude (meter.beatUnit : Float) (-152) 47 := by
  have hbelow := magnitude_ofNat h.1 h.2
  have hthree : Magnitude 3.0 (-51) (-51) := ⟨by decide,by decide,by decide,by decide,by decide⟩
  unfold Meter.beatUnit
  split
  · exact (hthree.div hbelow (by decide) (by decide)).mono (by decide) (by decide) (by decide)
      (by decide)
  · exact (magnitude_one.div hbelow (by decide) (by decide)).mono (by decide) (by decide)
      (by decide) (by decide)

/-- The tempo is a product of three numbers, all of them moderate. -/
theorem Tempo.finitePositive_read? {text : Text} {beatUnit : Float} {tempo : Tempo Float}
    (h : read? text beatUnit = some tempo) (hunit : Magnitude beatUnit (-152) 47)
    (hnumbers : ∀ x ∈ numbers text, isModerate x = true) : FinitePositive tempo.bpm := by
  have hproduct {number units : Float} (hnumber : isModerate number = true)
      (hunits : Magnitude units (-152) 47) : FinitePositive (number * units * 4.0) :=
    (((magnitude_of_isModerate hnumber).mul hunits (by decide) (by decide)).mul magnitude_four
      (by decide) (by decide)).finitePositive
  unfold read? at h
  unfold numbers at hnumbers
  generalize splitQuotes none none [] text = parts at h hnumbers
  obtain ⟨word,outside⟩ := parts
  dsimp only at h hnumbers
  split at h
  · obtain ⟨w,-,rfl⟩ := Option.map_eq_some_iff.mp h
    exact finitePositive_standard
  · split at h
    · next left right hcut =>
      rw [hcut] at hnumbers
      dsimp only at hnumbers
      obtain ⟨pair,hpair,h⟩ := Option.bind_eq_some_iff.mp h
      obtain ⟨units,hunits,rfl⟩ := Option.map_eq_some_iff.mp hpair
      obtain ⟨bpm,hbpm,h⟩ := Option.bind_eq_some_iff.mp h
      dsimp only at hbpm
      rw [hunits, hbpm] at hnumbers
      obtain ⟨hunits,hbpm⟩ := List.forall_mem_cons.mp hnumbers
      split at h
      · cases h
      · obtain rfl := Option.some.inj h
        exact hproduct (hbpm bpm List.mem_cons_self) (magnitude_of_isModerate hunits)
    · next hcut =>
      rw [hcut] at hnumbers
      rw [Option.bind_eq_bind, Option.bind_some] at h
      obtain ⟨bpm,hbpm,h⟩ := Option.bind_eq_some_iff.mp h
      rw [hbpm] at hnumbers
      split at h
      · cases h
      · obtain rfl := Option.some.inj h
        exact hproduct (hnumbers bpm List.mem_cons_self) hunit

/-! ## Fields -/

namespace FieldState

variable {n : Nat} {s s' : FieldState}

/-- Moderate settings, and voices that are bounded after `n` tokens. -/
structure Moderate (n : Nat) (s : FieldState) : Prop where
  settings : s.toFieldSettings.Moderate
  voices : s.voices.Bounded n

theorem Moderate.mapHeading (h : s.Moderate n) {f : Heading Float → Heading Float}
    (hf : (f s.heading).Moderate) : (s.mapHeading f).Moderate n :=
  ⟨⟨h.settings.unitLength,h.settings.beats,h.settings.beatType,hf⟩,h.voices⟩

theorem Moderate.mapHeader (h : s.Moderate n) {f : Heading Float → Heading Float}
    (hf : (f s.heading).Moderate) : (s.mapHeader f).Moderate n := by
  unfold FieldState.mapHeader
  split
  · exact h.mapHeading hf
  · exact h

/-- What has nothing to do with how the tune is played makes no difference. -/
theorem Moderate.noted (h : s.Moderate n) {f : Heading Float → Heading Float}
    (hplays : ∀ g : Heading Float, g.PlaysAs (f g)) : (s.mapHeading f).Moderate n := by
  obtain ⟨-,-,hunit,htempo,hparts⟩ := hplays s.heading
  have hheading := h.settings.heading
  exact h.mapHeading ⟨hunit ▸ hheading.unitLength,htempo ▸ hheading.tempo,hparts ▸ hheading.parts⟩

theorem Moderate.setVoices (h : s.Moderate n) {voices : VoiceTable Float}
    (hvoices : voices.Bounded n) : { s with voices }.Moderate n := ⟨h.settings,hvoices⟩

theorem Moderate.setKey (h : s.Moderate n) (key : Key) :
    { s with context := { s.context with key } }.Moderate n :=
  ⟨⟨h.settings.unitLength,h.settings.beats,h.settings.beatType,h.settings.heading⟩,h.voices⟩

theorem Moderate.configures (h : s.Moderate n) {voices : VoiceTable Float}
    (hvoices : s.voices.Configures voices) : { s with voices }.Moderate n := by
  rcases hvoices with rfl | ⟨a,rfl⟩
  · exact h
  · exact h.setVoices (h.voices.ensureSettings.define _ a)

theorem Moderate.setMeter (h : s.Moderate n) {value : Text} {meter : Meter}
    (hread : Meter.read? value = some meter) :
    ({ s with context := { s.context with meter } }.mapHeader ({ · with meter })).Moderate n := by
  obtain ⟨hbeats,htype⟩ := Meter.read?_bounds hread
  have hheading := h.settings.heading
  have hset : { s with context := { s.context with meter } }.Moderate n :=
    ⟨⟨h.settings.unitLength,hbeats.2,htype,hheading⟩,h.voices⟩
  exact hset.mapHeader ⟨hheading.unitLength,hheading.tempo,hheading.parts⟩

theorem Moderate.setUnitLength (h : s.Moderate n) {unitLength : Float}
    (hmoderate : isModerate unitLength = true) :
    ({ s with context := { s.context with unitLength, unitStated := true } }.mapHeader
      ({ · with unitLength })).Moderate n := by
  have hheading := h.settings.heading
  have hset : { s with
      context := { s.context with unitLength, unitStated := true } }.Moderate n :=
    ⟨⟨hmoderate,h.settings.beats,h.settings.beatType,hheading⟩,h.voices⟩
  exact hset.mapHeader ⟨hmoderate,hheading.tempo,hheading.parts⟩

theorem Moderate.setTempo (h : s.Moderate n) {value : Text} {tempo : Tempo Float}
    (hread : Tempo.read? value s.context.meter.beatUnit = some tempo)
    (hnumbers : ∀ x ∈ Tempo.numbers value, isModerate x = true) :
    (s.mapHeading ({ · with tempo })).Moderate n := by
  have hheading := h.settings.heading
  have hbpm : FinitePositive tempo.bpm :=
    Tempo.finitePositive_read? hread (magnitude_beatUnit h.settings.beatType) hnumbers
  have hchanged : { s.heading with tempo }.Moderate :=
    ⟨hheading.unitLength,hbpm,hheading.parts⟩
  exact h.mapHeading (f := ({ · with tempo })) hchanged

theorem Moderate.endHeader (h : s.Moderate n) : s.endHeader.Moderate n := by
  have hheading := h.settings.heading
  unfold FieldState.endHeader
  split
  · exact h
  · dsimp only
    split
    · exact ⟨⟨h.settings.unitLength,h.settings.beats,h.settings.beatType,
        ⟨h.settings.unitLength,hheading.tempo,hheading.parts⟩⟩,h.voices⟩
    · have hdefault := Meter.isModerate_defaultUnitLength s.context.meter
      exact ⟨⟨hdefault,h.settings.beats,h.settings.beatType,
        ⟨hdefault,hheading.tempo,hheading.parts⟩⟩,h.voices⟩

theorem Moderate.applyNamed (h : s.Moderate n) {name : Char} {token : Token}
    (htoken : isModerateField name token.text = true) :
    (s.applyNamed name token).1.Moderate n := by
  generalize hp : s.applyNamed name token = p
  cases course_of_applyNamed hp with
  | rejected | lateTempo | part => exact h
  | noted f _ hplays => exact h.noted hplays
  | meter meter _ hread => exact h.setMeter hread
  | unitLength unitLength hname hread =>
    subst hname
    change (readFraction? (Text.trim token.text)).all isModerate = true at htoken
    rw [hread] at htoken
    exact h.setUnitLength htoken
  | tempo tempo hname _ hread =>
    subst hname
    exact h.setTempo hread (List.all_eq_true.mp htoken)
  | sequence labels hname _ hread =>
    subst hname
    simp only [isModerateField, hread, decide_eq_true_eq] at htoken
    have hheading := h.settings.heading
    exact ⟨⟨h.settings.unitLength,h.settings.beats,h.settings.beatType,
      ⟨hheading.unitLength,hheading.tempo,htoken⟩⟩,h.voices⟩
  | voice id a => exact h.setVoices (h.voices.define id a)
  | switched id voices _ _ hvoices =>
    rcases hvoices with rfl | ⟨a,rfl⟩
    · exact h.setVoices (h.voices.switchTo id)
    · exact h.setVoices ((h.voices.define id a).switchTo id)
  | key _ hkey =>
    cases hkey with
    | unknown => exact h
    | stray key => exact h.setKey key
    | applied key a voices _ _ hvoices => exact ((h.setKey key).configures hvoices).endHeader

theorem Moderate.applyDirective (h : s.Moderate n) (text : Text) (line : Nat) :
    (s.applyDirective text line).1.Moderate n := by
  rcases s.applyDirective_cases text line with ⟨d,heq⟩ | ⟨voices,hvoices,heq⟩
  · rw [heq]
    exact h
  · rw [heq]
    exact h.configures hvoices

theorem Moderate.applyField (h : s.Moderate n) {token : Token} {name : Char}
    (hkind : token.kind = .field name ∨ token.kind = .inlineField name)
    (htoken : isModerateField name token.text = true) : (s.applyField token).1.Moderate n := by
  unfold FieldState.applyField
  rcases hkind with hkind | hkind <;> rw [hkind] <;> exact h.applyNamed htoken

end FieldState

/-! ## Tokens that are passed over -/

namespace Spot

variable {p q : Spot}

/-- What tokens do not take back. -/
structure Grows (p q : Spot) : Prop where
  tokens : p.tokens ≤ q.tokens
  doublings : p.doublings ≤ q.doublings
  limit : p.doublings ≤ mostDoublings → q.doublings ≤ mostDoublings
  room : p.tokens ≤ mostTokens → q.tokens ≤ mostTokens

theorem grows_after {token : Token} (h : p.admits token = true) :
    p.Grows (p.after token).count := by
  unfold admits at h
  obtain ⟨hn,hkind⟩ := Bool.and_eq_true_iff.mp h
  have hroom : p.tokens + 1 ≤ mostTokens := of_decide_eq_true hn
  obtain ⟨kind,text,line,column,properties⟩ := token
  cases kind with
  | tuplet =>
    exact ⟨Nat.le_succ _,Nat.le_add_right _ _,fun _ => of_decide_eq_true hkind,fun _ => hroom⟩
  | note =>
    change p.Grows p.withNote.count
    unfold withNote
    split <;> exact ⟨Nat.le_succ _,Nat.le_refl _,id,fun _ => hroom⟩
  | _ => exact ⟨Nat.le_succ _,Nat.le_refl _,id,fun _ => hroom⟩

theorem next?_eq {token : Token} (h : p.next? token = some q) :
    p.admits token = true ∧ q = (p.after token).count := by
  unfold next? at h
  split at h
  · next hadmits => exact ⟨hadmits,(Option.some.inj h).symm⟩
  · cases h

theorem grows_foldlM {tokens : List Token} (h : tokens.foldlM next? p = some q) :
    p.Grows q := by
  induction tokens generalizing p with
  | nil =>
    cases h
    exact ⟨Nat.le_refl _,Nat.le_refl _,id,id⟩
  | cons token rest ih =>
    rw [List.foldlM_cons] at h
    obtain ⟨next,hnext,hrest⟩ := Option.bind_eq_some_iff.mp h
    obtain ⟨hadmits,rfl⟩ := next?_eq hnext
    have hfirst := grows_after hadmits
    have hmore := ih hrest
    exact ⟨hfirst.tokens.trans hmore.tokens,hfirst.doublings.trans hmore.doublings,
      hmore.limit ∘ hfirst.limit,hmore.room ∘ hfirst.room⟩

end Spot

namespace MusicState

variable {p q : Spot} {s : MusicState Float}

theorem Fits.setVoices (h : s.Fits p) (hchord : p.chord = none) {voices : VoiceTable Float}
    (hvoices : voices.Bounded p.tokens) : { s with voices }.Fits { p with behind := false } := by
  refine ⟨h.bounded.setVoices hvoices,h.limit,h.grace,fun c hc => ?_,fun hq => by cases hq⟩
  obtain ⟨⟨k,hk,-⟩,-⟩ := h.chord c hc
  cases hchord.symm.trans hk

/-- Where nothing is open, tokens that are not read change nothing. -/
theorem Fits.later (h : s.Fits p) (hchord : p.chord = none) (hgrace : q.grace = p.grace)
    (hgrows : p.Grows q) : s.Fits { q with behind := false } := by
  refine ⟨h.bounded.mono hgrows.tokens hgrows.doublings,hgrows.limit h.limit,
    h.grace.trans hgrace.symm,fun c hc => ?_,fun hq => by cases hq⟩
  obtain ⟨⟨k,hk,-⟩,-⟩ := h.chord c hc
  cases hchord.symm.trans hk

theorem Fits.endLine (h : s.Fits p) (hgrace : p.grace = false) :
    s.endLine.Fits { p with behind := false } where
  bounded := ⟨h.bounded.voices,h.bounded.memories,
    fun id => (Nat.le_add_right _ _).trans (h.bounded.graces id),
    fun _ hg => absurd hg List.not_mem_nil,fun _ ht => absurd ht List.not_mem_nil,Nat.zero_le _,
    fun _ hc => absurd hc (Option.not_mem_none _)⟩
  limit := h.limit
  grace := hgrace.symm
  chord _ hc := absurd hc (Option.not_mem_none _)
  behind hq := by cases hq

theorem Fits.setPart (h : s.Fits p) (part : Option Char) : { s with part }.Fits p :=
  ⟨⟨h.bounded.voices,h.bounded.memories,h.bounded.graces,h.bounded.group,h.bounded.tuplets,
    h.bounded.doublings,h.bounded.chord⟩,h.limit,h.grace,h.chord,h.behind⟩

end MusicState

/-! ## Reading -/

namespace TuneReading

variable {p q : Spot} {r r' : TuneReading}

/-- A reading at a spot of a moderate tune. -/
structure Fits (p : Spot) (r : TuneReading) : Prop where
  settings : r.settings.Moderate
  music : r.music.Fits p
  sections : ∀ part ∈ r.sections, Clock p.tokens part.start

/-- A reading that has found no problem is at the spot. -/
def Follows (p : Spot) (r : TuneReading) : Prop := r.diagnostics = [] → r.Fits p

theorem Fits.report (h : r.Fits p) (ds : List Diagnostic) : (r.report ds).Fits p :=
  ⟨h.settings,h.music,h.sections⟩

theorem Fits.later (h : r.Fits p) (hchord : p.chord = none) (hgrace : q.grace = p.grace)
    (hgrows : p.Grows q) : r.Fits { q with behind := false } :=
  ⟨h.settings,h.music.later hchord hgrace hgrows,
    fun part hpart => (h.sections part hpart).more hgrows.tokens le_rfl⟩

theorem Fits.fieldState (h : r.Fits p) : r.fieldState.Moderate p.tokens :=
  ⟨h.settings,h.music.bounded.voices⟩

theorem Fits.setFieldState (h : r.Fits p) (hchord : p.chord = none) {s : FieldState}
    (hs : s.Moderate p.tokens) : (r.setFieldState s).Fits { p with behind := false } :=
  ⟨hs.settings,h.music.setVoices hchord hs.voices,h.sections⟩

theorem Fits.startPart (h : r.Fits p) (hchord : p.chord = none) (label : Char) :
    (r.startPart label).Fits { p with behind := false } := by
  have hvoices := h.music.bounded.voices.syncAll
  refine ⟨h.settings,(h.music.setVoices hchord hvoices).setPart (some label),
    fun part hpart => ?_⟩
  rcases List.mem_append.mp hpart with hpart | hpart
  · exact h.sections part hpart
  · rw [List.mem_singleton.mp hpart]
    exact hvoices.cursor

theorem Fits.readField (h : r.Fits p) (hchord : p.chord = none) {token : Token} {name : Char}
    (hkind : token.kind = .field name ∨ token.kind = .inlineField name)
    (htoken : isModerateField name token.text = true) :
    (r.readField token).Fits { p with behind := false } := by
  have hmoderate := h.fieldState.applyField hkind htoken
  unfold TuneReading.readField
  generalize r.fieldState.applyField token = applied at hmoderate
  have hset := h.setFieldState hchord hmoderate
  dsimp only
  split
  · exact hset.startPart hchord _
  · exact hset
  · exact hset.report _

theorem diagnostics_readField (r : TuneReading) (token : Token) :
    ∃ ds, (r.readField token).diagnostics = r.diagnostics ++ ds := by
  unfold TuneReading.readField
  dsimp only
  split
  · exact ⟨[],(List.append_nil _).symm⟩
  · exact ⟨[],(List.append_nil _).symm⟩
  · exact ⟨_,rfl⟩

theorem Follows.readField (h : r.Follows p) (hchord : p.chord = none) {token : Token} {name : Char}
    (hkind : token.kind = .field name ∨ token.kind = .inlineField name)
    (htoken : isModerateField name token.text = true) :
    (r.readField token).Follows { p with behind := false } := by
  intro hnone
  obtain ⟨ds,hds⟩ := diagnostics_readField r token
  exact (h (List.append_eq_nil_iff.mp (hds.symm.trans hnone)).1).readField hchord hkind htoken

theorem Follows.count (h : r.Follows p) : r.Follows p.count := fun hnone =>
  have hr := h hnone
  ⟨hr.settings,hr.music.count,fun part hpart =>
    (hr.sections part hpart).more (Nat.le_succ _) le_rfl⟩

theorem admits_field {token : Token} {name : Char}
    (hkind : token.kind = .field name ∨ token.kind = .inlineField name)
    (h : p.admits token = true) :
    p.chord = none ∧ isModerateField name token.text = true ∧
      p.after token = { p with behind := false } := by
  obtain ⟨kind,text,line,column,properties⟩ := token
  unfold Spot.admits at h
  obtain ⟨-,h⟩ := Bool.and_eq_true_iff.mp h
  rcases hkind with hkind | hkind <;> dsimp only at hkind <;> subst hkind <;>
    exact ⟨Option.isNone_iff_eq_none.mp (Bool.and_eq_true_iff.mp h).1,
      (Bool.and_eq_true_iff.mp h).2,rfl⟩

/-- A token leads from spot to spot, or to a problem. -/
theorem Follows.readToken (h : r.Follows p) {token : Token} (htoken : p.admits token = true)
    (hread : r.readToken token = .ok r') : r'.Follows (p.after token).count := by
  by_cases hkind : ∃ name, token.kind = .inlineField name
  · obtain ⟨name,hkind⟩ := hkind
    obtain ⟨hchord,hfield,hafter⟩ := admits_field (.inr hkind) htoken
    unfold TuneReading.readToken at hread
    rw [hkind] at hread
    cases hread
    rw [hafter]
    exact (h.readField hchord (.inr hkind) hfield).count
  · rw [readToken_eq r fun name hname => hkind ⟨name,hname⟩] at hread
    obtain ⟨⟨music,problem⟩,hhandle,rfl⟩ := exists_of_map_ok hread
    intro hnone
    obtain ⟨hold,hproblem⟩ := List.append_eq_nil_iff.mp hnone
    have hr := h hold
    cases problem with
    | some problem => cases hproblem
    | none =>
      have hmusic := hr.music.handle htoken hr.settings.context music hhandle
      exact ⟨hr.settings,hmusic,fun part hpart =>
        (hr.sections part hpart).more (Spot.grows_after htoken).tokens le_rfl⟩

theorem Follows.readTokens (h : r.Follows p) {tokens : List Token}
    (htokens : tokens.foldlM Spot.next? p = some q) (hread : r.readTokens tokens = .ok r') :
    r'.Follows q := by
  induction tokens generalizing r p with
  | nil =>
    cases htokens
    cases hread
    exact h
  | cons token rest ih =>
    rw [List.foldlM_cons] at htokens
    obtain ⟨spot,hspot,hrest⟩ := Option.bind_eq_some_iff.mp htokens
    obtain ⟨next,hnext,hread⟩ := exists_of_bind_ok hread
    obtain ⟨hadmits,rfl⟩ := Spot.next?_eq hspot
    exact ih (h.readToken hadmits hnext) hrest hread

theorem Follows.readMusic (h : r.Follows p) {tokens : List Token}
    (htokens : tokens.foldlM Spot.next? p = some q) (hgrace : q.grace = false) {line : Nat}
    (hread : r.readMusic tokens line = .ok r') : r'.Follows { q with behind := false } := by
  obtain ⟨next,hnext,hend⟩ := exists_of_bind_ok hread
  have hbegin : r.beginMusic.Follows p := fun hnone =>
    have hr := h hnone
    have hs := hr.settings
    ⟨⟨hs.unitLength,hs.beats,hs.beatType,hs.heading⟩,hr.music,hr.sections⟩
  have hmusic := hbegin.readTokens htokens hnext
  cases hend
  split
  · intro hnone
    have hr := hmusic hnone
    exact ⟨hr.settings,hr.music.line,hr.sections⟩
  · intro hnone
    have hr := hmusic (List.append_eq_nil_iff.mp hnone).1
    exact ⟨hr.settings,hr.music.endLine hgrace,hr.sections⟩

/-- Between lines neither a chord nor a grace group is open. -/
structure Between (p : Spot) (r : TuneReading) : Prop where
  follows : r.Follows { p with behind := false }
  chord : p.chord = none
  grace : p.grace = false
  room : p.tokens ≤ mostTokens

theorem Between.readLine (h : r.Between p) {text : Text} {line : Nat}
    (hline : p.line? (Token.tokenize text line) = some q)
    (hread : r.readLine text line = .ok r') : r'.Between q := by
  unfold Spot.line? at hline
  obtain ⟨hscan,hclosed⟩ := Option.filter_eq_some_iff.mp hline
  obtain ⟨hchord,hgrace⟩ := Bool.and_eq_true_iff.mp hclosed
  have hchord := Option.isNone_iff_eq_none.mp hchord
  have hgrace : q.grace = false := by simpa using hgrace
  have hgrows := Spot.grows_foldlM hscan
  refine ⟨?_,hchord,hgrace,hgrows.room h.room⟩
  have hlater {u : TuneReading} (hu : u.Follows { p with behind := false }) :
      u.Follows { q with behind := false } := fun hnone =>
    (hu hnone).later h.chord (hgrace.trans h.grace.symm) hgrows
  have hcourse := course_of_readLine hread
  generalize Token.tokenize text line = tokens at hscan hcourse
  cases hcourse with
  | field hkind =>
    rw [List.foldlM_cons] at hscan
    obtain ⟨spot,hspot,-⟩ := Option.bind_eq_some_iff.mp hscan
    obtain ⟨hadmits,-⟩ := Spot.next?_eq hspot
    obtain ⟨-,hfield,-⟩ := admits_field (.inl hkind) hadmits
    exact hlater (h.follows.readField h.chord (.inl hkind) hfield)
  | directive hkind =>
    refine hlater fun hnone => ?_
    have hr := h.follows (List.append_eq_nil_iff.mp hnone).1
    exact (hr.setFieldState h.chord (hr.fieldState.applyDirective _ line)).report _
  | passed hpassed => exact hlater h.follows
  | early hkind hsolid hstage =>
    intro hnone
    cases (List.append_eq_nil_iff.mp hnone).2
  | music hkind hsolid hstage hread => exact h.follows.readMusic hscan hgrace hread

theorem Between.readLines (h : r.Between p) {lines : List (Nat × Text)}
    (hlines : p.lines? lines = some q) (hread : r.readLines lines = .ok r') : r'.Between q := by
  induction lines generalizing r p with
  | nil =>
    cases hlines
    cases hread
    exact h
  | cons line rest ih =>
    obtain ⟨spot,hspot,hrest⟩ := Option.bind_eq_some_iff.mp hlines
    obtain ⟨next,hnext,hread⟩ := exists_of_bind_ok hread
    exact ih (h.readLine hspot hnext) hrest hread

theorem fits_initial (hasHeader : Bool) : (initial hasHeader).Fits .start :=
  ⟨FieldSettings.moderate_initial _,MusicState.fits_start,
    fun _ hpart => absurd hpart List.not_mem_nil⟩

end TuneReading

/-- Whether a source is moderate, with its repeats written out: the numbers of its fields are
neither tiny nor huge and those of its notes have few digits, chords have few notes and are closed
on their line as grace groups are, broken rhythm stands behind a note, chord or rest that no mark
has changed yet, no field is set inside a chord, and neither tuplets nor tokens are too many. -/
def isModerateSource (source : Text) : Bool :=
  match expandSource source with
  | .ok (text, _) => (Spot.start.lines? (numberLines 1 (Text.lines text))).isSome
  | .error _ => true

theorem TuneReading.fits_ofSource {source : Text} {r : TuneReading}
    (hread : ofSource source = .ok r) (hmoderate : isModerateSource source = true)
    (hnone : r.diagnostics = []) : ∃ p : Spot, r.Fits p ∧ p.tokens ≤ mostTokens := by
  obtain ⟨⟨text,problems⟩,hexpand,hlines⟩ := exists_of_bind_ok hread
  unfold isModerateSource at hmoderate
  rw [hexpand] at hmoderate
  obtain ⟨q,hq⟩ := Option.isSome_iff_exists.mp hmoderate
  have hbegin : ((initial (hasKeyLine text)).report problems).Between .start :=
    ⟨fun _ => (fits_initial _).report problems,rfl,rfl,Nat.zero_le _⟩
  have hend := hbegin.readLines hq hlines
  exact ⟨{ q with behind := false },hend.follows hnone,hend.room⟩

end AbcTune
