import AbcTune.Proofs.Music.OneVoice
import AbcTune.Proofs.Music.Spot

/-! # Moderate music stays bounded

Each token that a spot of moderate music admits leads to the spot behind it, unless it is rejected.
A note, chord or rest moves the clock by less than a stride; closing a chord multiplies its notes
once for each time that they are in it; and a mark of broken rhythm stretches notes that no mark
has stretched before.
-/
namespace AbcTune.MusicState

open Number

variable {n m b c : Nat} {p q : Spot} {s : MusicState Float} {id : String} {v w : Voice Float}
variable {P Q : Note Float → Prop} {places : List Nat}

/-! ## Bounded states -/

theorem bounded_initial : (initial : MusicState Float).Bounded n b where
  voices := VoiceTable.bounded_empty
  memories _ := ⟨fun _ hg => absurd hg List.not_mem_nil,span_zero,span_one.mono (by decide)⟩
  graces _ := Nat.zero_le n
  group _ hg := absurd hg List.not_mem_nil
  tuplets _ ht := absurd ht List.not_mem_nil
  doublings := Nat.zero_le b
  chord _ hc := absurd hc (Option.not_mem_none _)

theorem Bounded.mono (h : s.Bounded m b) (hn : m ≤ n) (hb : b ≤ c) : s.Bounded n c where
  voices := h.voices.mono hn
  memories := h.memories
  graces id := (h.graces id).trans hn
  group := h.group
  tuplets := h.tuplets
  doublings := h.doublings.trans hb
  chord c hc := (h.chord c hc).mono hn

theorem Bounded.setVoices (h : s.Bounded n b) {voices : VoiceTable Float}
    (hvoices : voices.Bounded n) : { s with voices }.Bounded n b :=
  ⟨hvoices,h.memories,h.graces,h.group,h.tuplets,h.doublings,h.chord⟩

theorem Bounded.setVoice (h : s.Bounded n b) (hw : w.Bounded n) : (s.setVoice w).Bounded n b :=
  h.setVoices (h.voices.setVoice hw)

theorem Bounded.setMemory (h : s.Bounded n b) {m : VoiceMemory Float} (hm : m.Bounded)
    (hcount : m.graces.length + (s.graceGroup.getD []).length ≤ n) (id : String) :
    (s.setMemory id m).Bounded n b where
  voices := h.voices
  memories other := by
    by_cases hid : other = id
    · rw [hid, memory_setMemory]
      exact hm
    · rw [memory_setMemory_of_ne s m hid]
      exact h.memories other
  graces other := by
    by_cases hid : other = id
    · rw [hid, memory_setMemory]
      exact hcount
    · rw [memory_setMemory_of_ne s m hid]
      exact h.graces other
  group := h.group
  tuplets := h.tuplets
  doublings := h.doublings
  chord := h.chord

theorem Bounded.step (h : s.Bounded n b) {beats : Float}
    (hcursor : Clock n (s.voices.cursor + beats)) : (s.step beats).Bounded n b := by
  obtain ⟨hsound,hle⟩ := Tuplet.countNote_sound h.tuplets
  exact ⟨h.voices.advance hcursor,h.memories,h.graces,h.group,hsound,hle.trans h.doublings,h.chord⟩

/-! ## The active voice -/

theorem Holds.imp (h : s.Holds places P) (himp : ∀ note, P note → Q note) : s.Holds places Q := by
  obtain ⟨v,hactive,hfind,hv⟩ := h
  exact ⟨v,hactive,hfind,hv.imp himp⟩

theorem Holds.active (h : s.Holds places P) : s.voices.active ≠ none := by
  obtain ⟨v,hactive,-⟩ := h
  rw [hactive]
  exact Option.some_ne_none _

theorem Holds.eq (h : s.Holds places P) (hactive : s.voices.active = some id)
    (hv : s.voices.find? id = some v) : v.Holds places P := by
  obtain ⟨w,hw,hfind,hholds⟩ := h
  obtain rfl : w.id = id := Option.some.inj (hw.symm.trans hactive)
  obtain rfl : w = v := Option.some.inj (hfind.symm.trans hv)
  exact hholds

theorem holds_nil (hactive : s.voices.active = some v.id)
    (hv : s.voices.find? v.id = some v) : s.Holds [] P :=
  ⟨v,hactive,hv,fun _ hi => absurd hi List.not_mem_nil⟩

theorem holds_setVoice (hactive : s.voices.active = some w.id)
    (hv : s.voices.find? w.id = some v) (hw : w.Holds places P) :
    (s.setVoice w).Holds places P := by
  refine ⟨w,hactive,?_,hw⟩
  change (s.voices.modify w.id fun _ => w).find? w.id = some w
  rw [VoiceTable.find?_modify _ fun _ _ => rfl, hv]
  rfl

theorem Bounded.exists_voice (h : s.Bounded n b) :
    ∃ v, s.voices.noteVoice = v.id ∧ s.voices.ensureActive.active = some v.id ∧
      s.voices.ensureActive.find? v.id = some v := by
  have hactive := VoiceTable.active_switchTo s.voices s.voices.noteVoice
  obtain ⟨v,hv⟩ := VoiceTable.exists_find? (h.voices.ensureActive.active _ hactive)
  have hid := VoiceTable.find?_id hv
  exact ⟨v,hid.symm,hid.symm ▸ hactive,hid.symm ▸ hv⟩

/-! ## States at a spot -/

theorem fits_start : (initial : MusicState Float).Fits .start where
  bounded := bounded_initial
  limit := Nat.zero_le _
  grace := rfl
  chord _ hc := absurd hc (Option.not_mem_none _)
  behind h := by cases h

theorem Fits.count (h : s.Fits p) : s.Fits p.count where
  bounded := h.bounded.mono (Nat.le_succ _) le_rfl
  limit := h.limit
  grace := h.grace
  chord c hc :=
    have hchord := h.chord c hc
    ⟨hchord.1,hchord.2.imp fun _ hnote => hnote.more (Nat.le_succ _) le_rfl⟩
  behind hq := by
    obtain ⟨hnone,id,hactive,hadvance,hcount,hgroup⟩ := h.behind hq
    exact ⟨hnone,id,hactive,hadvance,hcount,
      hgroup.imp fun _ hnote => hnote.more (Nat.le_succ _) le_rfl⟩

/-- Between lines nothing is open. -/
theorem Fits.line (h : s.Fits p) : s.Fits { p with behind := false } :=
  ⟨h.bounded,h.limit,h.grace,h.chord,fun hq => by cases hq⟩

theorem Fits.ensureActive (h : s.Fits p) : { s with voices := s.voices.ensureActive }.Fits p := by
  cases hactive : s.voices.active with
  | some id =>
    rw [VoiceTable.ensureActive_of_active hactive]
    exact h
  | none =>
    refine ⟨h.bounded.setVoices h.bounded.voices.ensureActive,h.limit,h.grace,fun c hc => ?_,
      fun hq => ?_⟩
    · exact absurd hactive (h.chord c hc).2.active
    · obtain ⟨-,id,hid,-⟩ := h.behind hq
      cases hactive.symm.trans hid

theorem Fits.setMemory (h : s.Fits p) {m : VoiceMemory Float} (hm : m.Bounded) {id : String}
    (hcount : m.graces.length + (s.graceGroup.getD []).length ≤ p.tokens)
    (hgroup : m.lastGroup = (s.memory id).lastGroup)
    (hadvance : m.lastAdvance = (s.memory id).lastAdvance) : (s.setMemory id m).Fits p := by
  refine ⟨h.bounded.setMemory hm hcount id,h.limit,h.grace,h.chord,fun hq => ?_⟩
  obtain ⟨hnone,other,hactive,hbehind⟩ := h.behind hq
  refine ⟨hnone,other,hactive,?_⟩
  by_cases hid : other = id
  · subst hid
    rw [memory_setMemory, hgroup, hadvance]
    exact hbehind
  · rw [memory_setMemory_of_ne s m hid]
    exact hbehind

/-- What broken rhythm may stand behind: an advance and places that are remembered. -/
theorem behind_setMemory {m : VoiceMemory Float} (hadvance : Span 363 m.lastAdvance)
    (hcount : m.lastGroup.length ≤ mostNotes) (hgroup : s.Holds m.lastGroup P) (id : String) :
    Span 363 ((s.setMemory id m).memory id).lastAdvance ∧
      ((s.setMemory id m).memory id).lastGroup.length ≤ mostNotes ∧
      (s.setMemory id m).Holds ((s.setMemory id m).memory id).lastGroup P := by
  rw [memory_setMemory]
  exact ⟨hadvance,hcount,hgroup⟩

/-- What is remembered of accidentals, dynamics and ties makes no difference. -/
theorem Fits.agree (h : s.Fits p) {m : VoiceMemory Float} {id : String}
    (hm : (s.memory id).Agrees m) : (s.setMemory id m).Fits p :=
  h.setMemory (hm.bounded (h.bounded.memories id)) (hm.graces ▸ h.bounded.graces id)
    hm.lastGroup hm.lastAdvance

theorem Fits.mapMemory (h : s.Fits p) (id : String) (f : VoiceMemory Float → VoiceMemory Float)
    (hf : ∀ m : VoiceMemory Float, m.Agrees (f m)) : (s.mapMemory id f).Fits p := h.agree (hf _)

theorem Fits.setDecorations (h : s.Fits p) (decorations : List Decoration) :
    { s with decorations }.Fits p :=
  ⟨⟨h.bounded.voices,h.bounded.memories,h.bounded.graces,h.bounded.group,h.bounded.tuplets,
    h.bounded.doublings,h.bounded.chord⟩,h.limit,h.grace,h.chord,h.behind⟩

/-- A token that is accepted leads to a spot. -/
def Leads (q : Spot) (r : Except Fault (Handled Float)) : Prop :=
  ∀ s, r = .ok (s,none) → s.Fits q

theorem Fits.accept (h : s.Fits q) : Leads q s.accept := by
  intro t ht
  cases ht
  exact h

theorem leads_reject (s : MusicState Float) (problem : MusicProblem) :
    Leads q (s.reject problem) := by
  intro t ht
  cases ht

theorem Leads.bind {α : Type} {x : Except Fault α} {f : α → Except Fault (Handled Float)}
    (h : ∀ a, x = .ok a → Leads q (f a)) : Leads q (x >>= f) := by
  intro t ht
  obtain ⟨a,hx,ha⟩ := exists_of_bind_ok ht
  exact h a hx t ha

/-! ## Notes -/

theorem Fits.scale (h : s.Fits p) : Span 200 (Tuplet.scaleAll s.tuplets : Float) := by
  have hle : Tuplet.allDoublings s.tuplets ≤ 200 := h.bounded.doublings.trans h.limit
  exact (Tuplet.span_scaleAll h.bounded.tuplets (hle.trans (by decide))).mono hle

theorem Fits.addGrace (h : s.Fits p) {group : List (Grace Float)}
    (hgroup : s.graceGroup = some group) {nominal : Float} (hnominal : Span 132 nominal)
    (written : Int) : Leads p.count (s.addGrace group written nominal) := by
  have hcount := h.count
  have hbounded := hcount.bounded
  have hold := h.bounded.group
  have hgraces := h.bounded.graces
  rw [hgroup, Option.getD_some] at hold hgraces
  refine Fits.accept ⟨⟨hbounded.voices,hbounded.memories,fun id => ?_,fun g hg => ?_,
    hbounded.tuplets,hbounded.doublings,hbounded.chord⟩,hcount.limit,?_,hcount.chord,hcount.behind⟩
  · have hle := hgraces id
    change (s.memory id).graces.length + (group ++ [_]).length ≤ p.tokens + 1
    rw [List.length_append, List.length_singleton]
    omega
  · rcases List.mem_append.mp hg with hg | hg
    · exact hold g hg
    · rw [List.mem_singleton.mp hg]
      exact hnominal.mul span_half (by decide)
  · rw [← hcount.grace, hgroup]
    rfl

theorem Fits.addToChord (h : s.Fits p) (hn : p.tokens < mostTokens) {chord : OpenChord Float}
    (hchord : s.chord = some chord) (hactive : s.voices.active = some v.id)
    (hv : s.voices.find? v.id = some v) {nominal : Float} (hnominal : Span 132 nominal)
    (written : Int) :
    Leads { p with chord := p.chord.map (· + 1), behind := p.chord.isNone }.count
      (s.addToChord chord v written nominal) := by
  have hmost : mostTokens = 2 ^ 22 := rfl
  obtain ⟨⟨k,hk,hlength⟩,hholds⟩ := h.chord chord hchord
  have hfresh := hholds.eq hactive hv
  have hopen := h.bounded.chord chord hchord
  have hvoice := h.bounded.voices.find? hv
  have hadvance : Span 333 (nominal * chord.factor) := hnominal.mul hopen.factor (by decide)
  unfold MusicState.addToChord
  refine Leads.bind ?_
  rintro ⟨w,m,i⟩ hplace
  obtain ⟨hchanged,hplaced,hm⟩ := place_bounds hn hvoice.starts
    ((hopen.start.fold (j := 22) (by omega)).more le_rfl (by decide))
    (hadvance.within.more le_rfl (by decide)) hplace
  have hid := hchanged.id_eq
  have hw : w.Bounded (p.tokens + 1) := hchanged.bounded (hvoice.mono (Nat.le_succ _))
    fun note hnote => ⟨hnote.1,hnote.2.closed.held⟩
  have hnotes : w.Holds (chord.notes ++ [i]) fun note => Fresh (p.tokens + 1) note.duration := by
    intro j hj
    rcases List.mem_append.mp hj with hj | hj
    · exact hchanged.holds (fun _ hnote => hnote.2)
        (hfresh.imp fun _ hnote => hnote.more (Nat.le_succ _) le_rfl) j hj
    · exact (hplaced.imp fun _ hnote => hnote.2) j hj
  let chord' : OpenChord Float := { chord with
    notes := chord.notes ++ [i]
    firstAdvance := chord.firstAdvance <|> some (nominal * chord.factor) }
  have hopen' : chord'.Bounded (p.tokens + 1) :=
    (hopen.mono (Nat.le_succ _)).addNote i hadvance
  have hold := h.bounded.mono (Nat.le_succ p.tokens) le_rfl
  let s₁ : MusicState Float := { s with chord := some chord', decorations := [] }
  have hs₁ : s₁.Bounded (p.tokens + 1) p.doublings :=
    ⟨hold.voices,hold.memories,hold.graces,hold.group,hold.tuplets,hold.doublings,
      fun c hc => Option.some.inj hc ▸ hopen'⟩
  have hs₂ := hs₁.setMemory (hm.bounded (hold.memories v.id))
    (hm.graces.symm ▸ hold.graces v.id) w.id
  refine Fits.accept ⟨hs₂.setVoice hw,h.limit,h.grace,fun c hc => ?_,fun hq => ?_⟩
  · obtain rfl : chord' = c := Option.some.inj hc
    refine ⟨⟨k + 1,congrArg (Option.map (· + 1)) hk,?_⟩,?_⟩
    · change (chord.notes ++ [i]).length ≤ k + 1
      rw [List.length_append, List.length_singleton]
      omega
    · exact holds_setVoice (s := s₁.setMemory w.id m) (hid ▸ hactive) (hid ▸ hv) hnotes
  · rw [Spot.count, hk] at hq
    cases hq

/-- A note by itself is written behind its grace notes, which take some of its beats. -/
theorem placeSingle_bounds {n i : Nat} {v₁ w : Voice Float} {m m' : VoiceMemory Float}
    {cursor advance borrowed : Float} {graces : List (Grace Float)} {velocity written : Int}
    {decorations : List Decoration} {part : Option Char} (hn : n < mostTokens) (hv : v.Bounded n)
    (hgraces : ∀ g ∈ graces, Span 132 g.beats) (hcount : graces.length ≤ n)
    (hcursor : Clock n cursor) (hadvance : Span 333 advance)
    (hgraced : placeGraces v velocity graces cursor advance part = (v₁,borrowed))
    (hplace : place v₁ m ⟨written,cursor + borrowed,advance - borrowed,decorations⟩ part =
      .ok (w,m',i)) :
    w.id = v.id ∧ w.Bounded (n + 1) ∧ (w.Holds [i] fun note => Closed (n + 1) note.duration) ∧
      m.Agrees m' := by
  have hmost : mostTokens = 2 ^ 22 := rfl
  obtain ⟨hornaments,hborrowed⟩ := placeGraces_bounds v velocity part hgraces hcount hn hcursor
    (hadvance.mono (by decide))
  rw [hgraced] at hornaments hborrowed
  have hstart : Within 1 390 (cursor + borrowed) :=
    (((hcursor.fold (j := 22) (by omega)).more le_rfl (by decide)).add hborrowed (by decide)
      (by decide)).fold (j := 1) (by decide)
  have hrest : Within 1 390 (advance - borrowed) :=
    ((hadvance.within.more le_rfl (by decide)).sub hborrowed (by decide) (by decide)).fold
      (j := 1) (by decide)
  have hstarts := hornaments.forall (fun _ hnote => hnote.start) hv.starts
  obtain ⟨hchanged,hplaced,hagrees⟩ := place_bounds hn hstarts hstart hrest hplace
  have hv₁ : v₁.Bounded (n + 1) :=
    hornaments.bounded (hv.mono (Nat.le_succ _)) fun note hnote =>
      ⟨hnote.start.more (Nat.le_succ _) le_rfl,hnote.2.within.more (by omega) (by decide)⟩
  have hw : w.Bounded (n + 1) :=
    hchanged.bounded hv₁ fun note hnote => ⟨hnote.1,hnote.2.closed.held⟩
  exact ⟨hchanged.id_eq.trans hornaments.id_eq,hw,hplaced.imp fun _ hnote => hnote.2.closed,hagrees⟩

/-- What is remembered behind a note by itself. -/
theorem bounded_behindSingle {m : VoiceMemory Float} (hgraces : m.graces = [])
    (hbroken : m.brokenNext = none) {advance : Float} (hadvance : Span 333 advance) (i : Nat) :
    { m with tiedFrom := [], lastGroup := [i], lastAdvance := advance }.Bounded := by
  refine ⟨?_,hadvance.mono (by decide),?_⟩
  · change ∀ g ∈ m.graces, Span 132 g.beats
    rw [hgraces]
    exact fun _ hg => absurd hg List.not_mem_nil
  · change Span 1 (m.brokenNext.getD 1.0)
    rw [hbroken]
    exact span_one.mono (by decide)

theorem Fits.addSingle (h : s.Fits p) (hn : p.tokens < mostTokens) (hchord : s.chord = none)
    (hactive : s.voices.active = some v.id) (hv : s.voices.find? v.id = some v) {nominal : Float}
    (hnominal : Span 132 nominal) (written : Int) (k : Option Nat) (behind : Bool) :
    Leads { p with chord := k, behind }.count (s.addSingle v written nominal) := by
  have hmemory := h.bounded.memories v.id
  have hgraces := h.bounded.graces v.id
  have hadvance : Span 333
      (nominal * (s.memory v.id).brokenNext.getD 1.0 * Tuplet.scaleAll s.tuplets) :=
    (hnominal.mul hmemory.brokenNext (by decide)).mul h.scale (by decide)
  unfold MusicState.addSingle
  dsimp only
  generalize nominal * (s.memory v.id).brokenNext.getD 1.0 * Tuplet.scaleAll s.tuplets = advance
    at hadvance
  have hcursor := h.bounded.voices.cursor
  rcases hgraced : placeGraces v (s.memory v.id).velocity (s.memory v.id).graces s.voices.cursor
    advance s.part with ⟨v₁,borrowed⟩
  refine Leads.bind ?_
  rintro ⟨w,m,i⟩ hplace
  obtain ⟨hid,hw,hplaced,hagrees⟩ := placeSingle_bounds hn (h.bounded.voices.find? hv)
    hmemory.graces (by omega) hcursor hadvance hgraced hplace
  let m' : VoiceMemory Float := { m with tiedFrom := [], lastGroup := [i], lastAdvance := advance }
  have hmemory' : m'.Bounded := bounded_behindSingle hagrees.graces hagrees.brokenNext hadvance i
  have hcount : m'.graces.length + (s.graceGroup.getD []).length ≤ p.tokens + 1 := by
    change m.graces.length + _ ≤ _
    rw [hagrees.graces, List.length_nil]
    omega
  have hs₀ := (h.setDecorations []).count.bounded
  have hs₁ := ((hs₀.setMemory hmemory' hcount w.id).setVoice hw).step
    (hcursor.advance hn (hadvance.within.more le_rfl (by decide)))
  have hplaces : (s.setVoice w).Holds [i] fun note => Closed (p.tokens + 1) note.duration :=
    holds_setVoice (hid ▸ hactive) (hid ▸ hv) hplaced
  refine Fits.accept ⟨hs₁,h.limit,h.grace,fun c hc => ?_,
    fun _ => ⟨hchord,w.id,hid ▸ hactive,?_⟩⟩
  · exact absurd (hchord.symm.trans hc) (Option.some_ne_none c).symm
  · exact behind_setMemory (m := m') (hadvance.mono (by decide)) (by decide : 1 ≤ mostNotes)
      hplaces w.id

theorem resolve_agrees (m : VoiceMemory Float) (written : WrittenNote Float) (key : Key) :
    m.Agrees (m.resolve written key).1 := by
  unfold VoiceMemory.resolve
  split <;> exact ⟨rfl,rfl,rfl,rfl⟩

theorem Fits.note (h : s.Fits p) (hn : p.tokens < mostTokens) {context : MusicContext Float}
    (hcontext : context.Moderate) {text : Text} (htext : text.countP Char.isDigit ≤ mostDigits) :
    Leads p.withNote.count (s.note text context) := by
  unfold MusicState.note
  split
  · exact leads_reject s _
  · next written hwritten =>
    have hnominal := hcontext.span_beats (WrittenNote.span_read? hwritten htext)
    obtain ⟨v,hid,hactive,hv⟩ := h.bounded.exists_voice
    have hresolved := h.ensureActive.agree
      (resolve_agrees ({ s with voices := s.voices.ensureActive }.memory v.id) written context.key)
    rw [hid]
    dsimp only
    split
    · next group hgroup =>
      have hgrace : p.grace = true := by
        rw [← h.grace]
        exact hgroup ▸ rfl
      rw [Spot.withNote, if_pos hgrace]
      exact hresolved.addGrace hgroup hnominal _
    · next hgroup =>
      have hgrace : p.grace = false := by
        rw [← h.grace]
        exact hgroup ▸ rfl
      rw [Spot.withNote, if_neg (by rw [hgrace]; decide)]
      split
      · next hnone => exact absurd (hnone.symm.trans hv) (Option.some_ne_none v).symm
      · next u chord hu hchord =>
        obtain rfl : u = v := Option.some.inj (hu.symm.trans hv)
        exact hresolved.addToChord hn hchord hactive hv hnominal _
      · next u hu hchord =>
        obtain rfl : u = v := Option.some.inj (hu.symm.trans hv)
        exact hresolved.addSingle hn hchord hactive hv hnominal _ _ _

/-! ## Rests -/

theorem countP_drop_le (text : Text) (k : Nat) :
    (text.drop k).countP Char.isDigit ≤ text.countP Char.isDigit :=
  (List.drop_sublist k text).countP_le

theorem Fits.rest (h : s.Fits p) (hn : p.tokens < mostTokens) {context : MusicContext Float}
    (hcontext : context.Moderate) {text : Text} (htext : text.countP Char.isDigit ≤ mostDigits) :
    Leads { p with behind := true }.count (s.rest text context) := by
  unfold MusicState.rest
  split
  · exact leads_reject s _
  · next hinside =>
    split
    · exact leads_reject s _
    · next length hlength =>
      have hchord : s.chord = none := by
        rw [Bool.or_eq_true, not_or] at hinside
        exact Option.not_isSome_iff_eq_none.mp hinside.2
      have hnominal := hcontext.span_beats
        (span_readLength? hlength ((countP_drop_le text 1).trans htext))
      obtain ⟨v,hid,hactive,hv⟩ := h.bounded.exists_voice
      rw [hid]
      dsimp only
      have hmemory := h.bounded.memories v.id
      have hadvance : Span 333 (context.beats length * (s.memory v.id).brokenNext.getD 1.0 *
          Tuplet.scaleAll s.tuplets) :=
        (hnominal.mul hmemory.brokenNext (by decide)).mul h.scale (by decide)
      generalize context.beats length * (s.memory v.id).brokenNext.getD 1.0 *
        Tuplet.scaleAll s.tuplets = advance at hadvance
      let m : VoiceMemory Float := { s.memory v.id with
        brokenNext := none, lastGroup := [], tiedFrom := [], lastAdvance := advance }
      let s₁ : MusicState Float :=
        { s with voices := s.voices.ensureActive, decorations := [] }
      have hs₁ : s₁.Fits p := h.ensureActive.setDecorations []
      have hs₂ := (hs₁.count.bounded.setMemory (m := m) ⟨hmemory.graces,hadvance.mono (by decide),
        span_one.mono (by decide)⟩ (hs₁.count.bounded.graces v.id) v.id).step
        (hs₁.bounded.voices.cursor.advance hn (hadvance.within.more le_rfl (by decide)))
      refine Fits.accept ⟨hs₂,h.limit,h.grace,fun c hc => ?_,fun _ => ⟨hchord,v.id,hactive,?_⟩⟩
      · exact absurd (hchord.symm.trans hc) (Option.some_ne_none c).symm
      · exact behind_setMemory (s := s₁) (m := m) (hadvance.mono (by decide)) (Nat.zero_le _)
          (holds_nil hactive hv) v.id

theorem Fits.multiRest (h : s.Fits p) (hn : p.tokens < mostTokens) {context : MusicContext Float}
    (hcontext : context.Moderate) {text : Text} (htext : text.countP Char.isDigit ≤ mostDigits) :
    Leads p.count (s.multiRest text context) := by
  unfold MusicState.multiRest
  split
  · exact leads_reject s _
  · next bars hbars =>
    have hadvance := hcontext.span_bars
      (span_barCount? hbars ((countP_drop_le text 1).trans htext))
    obtain ⟨v,hid,hactive,hv⟩ := h.bounded.exists_voice
    rw [hid]
    dsimp only
    let s₁ : MusicState Float := { s with voices := s.voices.ensureActive }
    have hs₁ : s₁.Fits p := h.ensureActive
    have hmemory := h.bounded.memories v.id
    let m : VoiceMemory Float := { s.memory v.id with lastGroup := [], tiedFrom := [] }
    have hs₂ := hs₁.count.bounded.setMemory (m := m) ⟨hmemory.graces,hmemory.lastAdvance,
      hmemory.brokenNext⟩ (hs₁.count.bounded.graces v.id) v.id
    have hcursor := hs₁.bounded.voices.cursor.advance hn (hadvance.within.more le_rfl (by decide))
    refine Fits.accept ⟨hs₂.setVoices (hs₂.voices.advance hcursor),h.limit,h.grace,
      fun c hc => ?_,fun hq => ?_⟩
    · exact hs₁.count.chord c hc
    · obtain ⟨hnone,id,hid,hlast,-⟩ := hs₁.behind hq
      obtain rfl : v.id = id := Option.some.inj (hactive.symm.trans hid)
      exact ⟨hnone,v.id,hactive,behind_setMemory (s := s₁) (m := m) hlast (Nat.zero_le _)
        (holds_nil hactive hv) v.id⟩

/-! ## Marks -/

theorem Fits.barLine (h : s.Fits p) : Leads p.count s.barLine := by
  unfold MusicState.barLine
  split
  · exact h.count.accept
  · exact Fits.accept (h.count.mapMemory _ _ fun _ => ⟨rfl,rfl,rfl,rfl⟩)

theorem Fits.tie (h : s.Fits p) : Leads p.count s.tie :=
  Fits.accept (h.ensureActive.count.mapMemory _ _ fun _ => ⟨rfl,rfl,rfl,rfl⟩)

theorem Fits.namedDecoration (h : s.Fits p) (text : Text) :
    Leads p.count (s.namedDecoration text) := by
  unfold MusicState.namedDecoration
  dsimp only
  split
  · exact Fits.accept (h.ensureActive.count.mapMemory _ _ fun _ => ⟨rfl,rfl,rfl,rfl⟩)
  · split
    · exact Fits.accept (h.ensureActive.count.mapMemory _ _ fun _ => ⟨rfl,rfl,rfl,rfl⟩)
    · exact leads_reject _ _
  · exact (h.count.setDecorations _).accept

theorem Fits.openGrace (h : s.Fits p) : Leads { p with grace := true }.count s.openGrace := by
  unfold MusicState.openGrace
  split
  · exact leads_reject s _
  · have hcount := h.count.bounded
    refine Fits.accept ⟨⟨hcount.voices,hcount.memories,fun id => ?_,
      fun _ hg => absurd hg List.not_mem_nil,hcount.tuplets,hcount.doublings,hcount.chord⟩,
      h.limit,rfl,h.count.chord,h.count.behind⟩
    exact (Nat.le_add_right _ _).trans (hcount.graces id)

theorem Fits.closeGrace (h : s.Fits p) :
    Leads { p with grace := false }.count s.closeGrace := by
  unfold MusicState.closeGrace
  split
  · exact leads_reject s _
  · next group hgroup =>
    have hactive := h.ensureActive.count
    have hbounded := hactive.bounded
    have hgraces := hbounded.graces s.voices.noteVoice
    have hwaiting := hbounded.group
    have hmemory := h.bounded.memories s.voices.noteVoice
    dsimp only at hgraces hwaiting
    rw [hgroup, Option.getD_some] at hgraces hwaiting
    let s₁ : MusicState Float := { s with graceGroup := none, voices := s.voices.ensureActive }
    have hs₁ : s₁.Fits { p with grace := false }.count :=
      ⟨⟨hbounded.voices,hbounded.memories,fun id =>
        (Nat.le_add_right _ _).trans (hbounded.graces id),fun _ hg => absurd hg List.not_mem_nil,
        hbounded.tuplets,hbounded.doublings,hbounded.chord⟩,h.limit,rfl,hactive.chord,
        hactive.behind⟩
    let m : VoiceMemory Float :=
      { s.memory s.voices.noteVoice with graces := (s.memory s.voices.noteVoice).graces ++ group }
    refine (hs₁.setMemory (m := m) ⟨?_,hmemory.lastAdvance,hmemory.brokenNext⟩ ?_ rfl rfl).accept
    · intro g hg
      exact (List.mem_append.mp hg).elim (hmemory.graces g) (hwaiting g)
    · change ((s.memory s.voices.noteVoice).graces ++ group).length ≤ p.tokens + 1
      rw [List.length_append]
      exact hgraces

theorem Fits.openTuplet (h : s.Fits p) {text : Text}
    (htext : p.doublings + Tuplet.writtenDoublings text ≤ mostDoublings)
    (context : MusicContext Float) :
    Leads { p with doublings := p.doublings + Tuplet.writtenDoublings text }.count
      (s.openTuplet text context) := by
  have hcount := h.count
  have hbounded := hcount.bounded.mono le_rfl (Nat.le_add_right _ (Tuplet.writtenDoublings text))
  unfold MusicState.openTuplet
  split
  · exact leads_reject s _
  · next t ht =>
    obtain ⟨hsound,hle⟩ := Tuplet.read?_spec ht
    split
    · refine Fits.accept ⟨⟨hbounded.voices,hbounded.memories,hbounded.graces,hbounded.group,
        List.forall_mem_cons.mpr ⟨hsound,h.bounded.tuplets⟩,?_,hbounded.chord⟩,htext,hcount.grace,
        hcount.chord,hcount.behind⟩
      have hsum := h.bounded.doublings
      change t.doublings + Tuplet.allDoublings s.tuplets ≤ p.doublings + _
      omega
    · exact Fits.accept ⟨hbounded,htext,hcount.grace,hcount.chord,hcount.behind⟩

/-! ## Chords and broken rhythm -/

theorem Fits.openChord (h : s.Fits p) :
    Leads { p with chord := some 0, behind := false }.count s.openChord := by
  unfold MusicState.openChord
  split
  · exact leads_reject s _
  · split
    · exact leads_reject s _
    · obtain ⟨v,hid,hactive,hv⟩ := h.bounded.exists_voice
      rw [hid]
      dsimp only
      have hcount := h.ensureActive.count
      have hmemory := h.bounded.memories v.id
      have hgraces := h.bounded.graces v.id
      have hbounded := hcount.bounded
      let chord : OpenChord Float :=
        { start := s.voices.ensureActive.cursor
          notes := []
          firstAdvance := none
          factor := (s.memory v.id).brokenNext.getD 1.0 * Tuplet.scaleAll s.tuplets
          decorations := s.decorations
          graces := (s.memory v.id).graces }
      have hchord : chord.Bounded (p.tokens + 1) :=
        ⟨hbounded.voices.cursor,span_zero,hmemory.brokenNext.mul h.scale (by decide),
          hmemory.graces,by change (s.memory v.id).graces.length ≤ _; omega⟩
      let s₁ : MusicState Float :=
        { s with voices := s.voices.ensureActive, chord := some chord, decorations := [] }
      have hs₁ : s₁.Fits { p with chord := some 0, behind := false }.count := by
        refine ⟨⟨hbounded.voices,hbounded.memories,hbounded.graces,hbounded.group,
          hbounded.tuplets,hbounded.doublings,fun c hc => Option.some.inj hc ▸ hchord⟩,h.limit,
          h.grace,fun c hc => ?_,fun hq => by cases hq⟩
        obtain rfl : chord = c := Option.some.inj hc
        exact ⟨⟨0,rfl,Nat.le_refl 0⟩,v,hactive,hv,fun _ hi => absurd hi List.not_mem_nil⟩
      let m : VoiceMemory Float := { s.memory v.id with brokenNext := none, graces := [] }
      refine (hs₁.setMemory (m := m) ⟨fun _ hg => absurd hg List.not_mem_nil,hmemory.lastAdvance,
        span_one.mono (by decide)⟩ ?_ rfl rfl).accept
      change 0 + (s.graceGroup.getD []).length ≤ p.tokens + 1
      omega

theorem Fits.closeChord (h : s.Fits p) (hn : p.tokens < mostTokens) {text : Text}
    (htext : text.countP Char.isDigit ≤ mostDigits) (hcount : ∀ k ∈ p.chord, k ≤ mostNotes) :
    Leads { p with chord := none, behind := true }.count (s.closeChord text) := by
  unfold MusicState.closeChord
  split
  · exact leads_reject s _
  · next chord hchord =>
    dsimp only
    split
    · exact leads_reject _ _
    · next multiplier hmultiplier =>
      have hspan := span_readLength? hmultiplier ((countP_drop_le text 1).trans htext)
      obtain ⟨⟨k,hk,hlength⟩,hholds⟩ := h.chord chord hchord
      obtain ⟨v,hactive,hv,hfresh⟩ := id hholds
      have hopen := h.bounded.chord chord hchord
      have hvoice := h.bounded.voices.find? hv
      have hmemory := h.bounded.memories v.id
      have hadvance : Span 363 (chord.firstAdvance.getD 0.0 * multiplier) :=
        hopen.firstAdvance.mul hspan (by decide)
      generalize chord.firstAdvance.getD 0.0 * multiplier = advance at hadvance
      rw [VoiceTable.noteVoice_of_active hactive, VoiceTable.ensureActive_of_active hactive, hv]
      dsimp only
      refine Leads.bind fun w hw => ?_
      have hchanged := finishChord_bounds hn hvoice.starts hfresh
        (hlength.trans (hcount k hk)) hspan hopen.graces hopen.count hopen.start hadvance hw
      have hid := hchanged.id_eq
      have hbounded : w.Bounded (p.tokens + 1) := hchanged.bounded (hvoice.mono (Nat.le_succ _))
        fun note hnote => ⟨hnote.1,hnote.2.held⟩
      have hclosed : w.Holds chord.notes fun note => Closed (p.tokens + 1) note.duration :=
        hchanged.holds (fun _ hnote => hnote.2)
          (hfresh.imp fun _ hnote => hnote.closed.more (by omega) le_rfl)
      have hold := h.count.bounded
      let m : VoiceMemory Float := { s.memory v.id with
        tiedFrom := [], lastGroup := chord.notes, lastAdvance := advance }
      let s₁ : MusicState Float := { s with chord := none }.setVoice w
      have hs₁ : s₁.Bounded (p.tokens + 1) p.doublings :=
        Bounded.setVoice ⟨hold.voices,hold.memories,hold.graces,hold.group,hold.tuplets,
          hold.doublings,fun _ hc => absurd hc (Option.not_mem_none _)⟩ hbounded
      have hs₂ := (hs₁.setMemory (m := m) ⟨hmemory.graces,hadvance.mono (by decide),
        hmemory.brokenNext⟩ (hold.graces v.id) v.id).step
        (h.bounded.voices.cursor.advance hn (hadvance.within.more le_rfl (by decide)))
      refine Fits.accept ⟨hs₂,h.limit,h.grace,fun _ hc => absurd hc (Option.not_mem_none _),
        fun _ => ⟨rfl,v.id,hactive,?_⟩⟩
      exact behind_setMemory (s := s₁) (m := m) hadvance (hlength.trans (hcount k hk))
        (holds_setVoice (s := { s with chord := none }) (hid ▸ hactive) (hid ▸ hv) hclosed) v.id

theorem Fits.brokenRhythm (h : s.Fits p) (hn : p.tokens < mostTokens) (hbehind : p.behind = true)
    (text : Text) : Leads { p with behind := false }.count (s.brokenRhythm text) := by
  obtain ⟨hchord,id,hid,hadvance,hlength,v,hactive,hv,hclosed⟩ := h.behind hbehind
  obtain rfl : v.id = id := Option.some.inj (hactive.symm.trans hid)
  unfold MusicState.brokenRhythm
  rw [hactive]
  dsimp only
  split
  · exact leads_reject s _
  · obtain ⟨hbefore,hafter⟩ := span_brokenFactors text
    rw [hv]
    dsimp only
    have hvoice := h.bounded.voices.find? hv
    have hmemory := h.bounded.memories v.id
    have hcursor := h.bounded.voices.cursor
    have hmost : mostTokens = 2 ^ 22 := rfl
    refine Leads.bind fun w hw => ?_
    have horigin : Within (p.tokens + 1) 365
        (s.voices.cursor - (s.memory v.id).lastAdvance) :=
      hcursor.sub (hadvance.within.more le_rfl (by decide)) (by omega) (by decide)
    have hchanged := stretch_bounds hn hvoice.starts hclosed hlength horigin hbefore hw
    have hid := hchanged.id_eq
    have hbounded : w.Bounded (p.tokens + 1) :=
      (hchanged.bounded hvoice fun _ hnote => hnote).mono (Nat.le_succ _)
    have hdelta : Within 1 365
        ((s.memory v.id).lastAdvance * ((brokenFactors text : Float × Float).1 - 1.0)) :=
      hadvance.within.mul ((hbefore.within.sub (span_one.mono (by decide)).within (by decide)
        (by decide)).fold (j := 1) (by decide)) (by decide) (by decide) (by decide)
    have hold := h.count.bounded
    let m : VoiceMemory Float := { s.memory v.id with
      lastAdvance := (s.memory v.id).lastAdvance * (brokenFactors text : Float × Float).1
      brokenNext := some (brokenFactors text : Float × Float).2 }
    have hs₁ := (hold.setVoice hbounded).setMemory (m := m) ⟨hmemory.graces,
      hadvance.mul hbefore (by decide),hafter⟩ (hold.graces v.id) v.id
    refine Fits.accept ⟨hs₁.setVoices (hs₁.voices.advance (hcursor.advance hn hdelta)),h.limit,
      h.grace,fun c hc => ?_,fun hq => by cases hq⟩
    exact absurd (hchord.symm.trans hc) (Option.some_ne_none c).symm

theorem Fits.handle (h : s.Fits p) {token : Token} (htoken : p.admits token = true)
    {context : MusicContext Float} (hcontext : context.Moderate) :
    Leads (p.after token).count (s.handle token context) := by
  unfold Spot.admits at htoken
  rw [Bool.and_eq_true, decide_eq_true_eq] at htoken
  obtain ⟨hn,hkind⟩ := htoken
  obtain ⟨kind,text,line,column,properties⟩ := token
  cases kind with
  | note => exact h.note hn hcontext (of_decide_eq_true hkind)
  | rest => exact h.rest hn hcontext (of_decide_eq_true hkind)
  | multiRest => exact h.multiRest hn hcontext (of_decide_eq_true hkind)
  | bar | repeatStart | repeatEnd | repeatBoth | ending => exact h.barLine
  | chordStart => exact h.openChord
  | chordEnd =>
    obtain ⟨hdigits,hcount⟩ := Bool.and_eq_true_iff.mp hkind
    refine h.closeChord hn (of_decide_eq_true hdigits) fun k hk => ?_
    rw [Option.mem_def.mp hk] at hcount
    exact of_decide_eq_true hcount
  | graceStart => exact h.openGrace
  | graceEnd => exact h.closeGrace
  | tuplet => exact h.openTuplet (of_decide_eq_true hkind) context
  | tie => exact h.tie
  | brokenRhythm => exact h.brokenRhythm hn hkind text
  | decoration => exact (h.count.setDecorations _).accept
  | extendedDecoration => exact h.namedDecoration text
  | unknown => exact leads_reject s _
  | field | inlineField => exact h.line.count.accept
  | directive | comment | slurStart | slurEnd | chordSymbol | continuation | space =>
    exact h.count.accept

end AbcTune.MusicState
