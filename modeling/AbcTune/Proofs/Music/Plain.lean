import AbcTune.Proofs.Beat.Double
import AbcTune.Proofs.Music.Interleaving
import AbcTune.Proofs.Music.Pitches
import AbcTune.Proofs.Token.Plain
import AbcTune.Proofs.Voice.Each

/-! # Reading plain music

Notes, rests and bar lines, with nothing open around them, are read one after another. The notes
are appended to the voice that notes go to, none of them before another, and an accidental counts
up to the next bar line.
-/
namespace AbcTune

theorem VoiceMemory.resolve_eq (m : VoiceMemory Float) (w : WrittenNote Float) (key : Key) :
    m.resolve w key =
      ({ m with accidentals := w.mark m.accidentals }, w.pitchAfter m.accidentals key) := by
  unfold resolve WrittenNote.mark WrittenNote.pitchAfter
  cases w.accidental with
  | none => rfl
  | some a => rfl

/-! ## Notes on the beat axis -/

open Number

/-- Notes none of which starts after a later one or behind the cursor. -/
structure InTime (notes : List (Note Float)) (cursor : Float) : Prop where
  now : Nonneg cursor
  starts : ∀ n ∈ notes, Nonneg n.start ∧ bits n.start ≤ bits cursor
  order : notes.Pairwise fun m n => bits m.start ≤ bits n.start

theorem InTime.advance {notes : List (Note Float)} {cursor beats : Float}
    (h : InTime notes cursor) (hbeats : Nonneg beats) : InTime notes (cursor + beats) := by
  obtain ⟨hle,hcursor⟩ := h.now.add hbeats
  exact ⟨hcursor,fun n hn => ⟨(h.starts n hn).1,(h.starts n hn).2.trans hle⟩,h.order⟩

theorem InTime.append {notes : List (Note Float)} {cursor beats : Float} {n : Note Float}
    (h : InTime notes cursor) (hn : n.start = cursor + 0.0) (hbeats : Nonneg beats) :
    InTime (notes ++ [n]) (cursor + beats) := by
  obtain ⟨hle,hcursor⟩ := h.now.add hbeats
  have hstart : bits n.start = bits cursor := hn ▸ h.now.bits_add_zero
  have hnonneg : Nonneg n.start := hstart.trans_le h.now
  refine ⟨hcursor,?_,?_⟩
  · intro m hm
    rcases List.mem_append.mp hm with hm | hm
    · exact ⟨(h.starts m hm).1,(h.starts m hm).2.trans hle⟩
    · rw [List.mem_singleton.mp hm]
      exact ⟨hnonneg,hstart.trans_le hle⟩
  · refine List.pairwise_append.mpr ⟨h.order,List.pairwise_singleton _ _,?_⟩
    intro m hm k hk
    rw [List.mem_singleton.mp hk, hstart]
    exact (h.starts m hm).2

/-! ## Settings in force -/

/-- The settings that notes are read with give lengths that are no less than zero. -/
structure MusicContext.Sound (c : MusicContext Float) : Prop where
  unitLength : (0.0 : Float) < c.unitLength
  beats : 0 < c.meter.beats ∧ c.meter.beats ≤ 255
  beatType : 0 < c.meter.beatType ∧ c.meter.beatType ≤ 255

variable {context : MusicContext Float}

theorem MusicContext.Sound.nonneg_beats (h : context.Sound) {length : Float}
    (hlength : (0.0 : Float) < length) : Nonneg (context.beats length * 1.0 * 1.0) := by
  obtain ⟨hunit,hpos⟩ := nonneg_of_pos h.unitLength
  obtain ⟨hnonneg,hne⟩ := nonneg_of_pos hlength
  have hfour : Nonneg (4.0 * context.unitLength) :=
    magnitude_four.nonneg.mul hunit (fun _ => hpos) (fun _ => magnitude_four.pos.ne')
  have hfourpos : bits (4.0 * context.unitLength) ≠ 0 := by
    have := hunit.bits_le_four_mul
    omega
  exact (hfour.mul hnonneg (fun _ => hne) (fun _ => hfourpos)).mul_one.mul_one

theorem MusicContext.Sound.nonneg_bars (h : context.Sound) {digits : Text} {bars : Float}
    (hbars : MusicState.barCount? digits = some bars) :
    Nonneg (bars * context.meter.barBeats) := by
  have hvalue : Magnitude (context.meter.value : Float) (-64) (-41) :=
    (magnitude_ofNat h.beats.1 h.beats.2).div (magnitude_ofNat h.beatType.1 h.beatType.2)
      (by decide) (by decide)
  have hbar : Magnitude (context.meter.barBeats : Float) (-62) (-36) :=
    hvalue.mul magnitude_four (by decide) (by decide)
  have hnonneg : Nonneg bars := by
    unfold MusicState.barCount? at hbars
    split at hbars
    · rw [← Option.some.inj hbars]
      exact magnitude_one.nonneg
    · obtain ⟨n,-,rfl⟩ := Option.map_eq_some_iff.mp hbars
      exact nonneg_ofNat n
  exact hnonneg.mul hbar.nonneg (fun _ => hbar.pos.ne')
    (fun hinfinite => absurd hinfinite hbar.lt_infinite.ne)

/-! ## Reading on in one voice -/

namespace VoiceTable

variable {t : VoiceTable Float} {id : String} {v : Voice Float}

theorem active_ensureActive (t : VoiceTable Float) : t.ensureActive.active = some t.noteVoice :=
  active_switchTo t t.noteVoice

theorem modify_self (t : VoiceTable Float) (id : String) : (t.modify id fun v => v) = t := by
  unfold modify
  simp

theorem mem_modify {f : Voice Float → Voice Float} (hf : ∀ v, v.id = id → (f v).id = id)
    (hv : v ∈ (t.modify id f).voices) (hne : v.id ≠ id) : v ∈ t.voices := by
  obtain ⟨w,hw,rfl⟩ := List.mem_map.mp hv
  by_cases hid : w.id = id
  · rw [if_pos hid] at hne
    exact absurd (hf w hid) hne
  · rwa [if_neg hid]

end VoiceTable

namespace MusicState

/-- Nothing is open, and `v` is the voice that notes go to. -/
structure Idle (s : MusicState Float) (v : Voice Float) (inForce : Accidentals) : Prop where
  tuplets : s.tuplets = []
  graceGroup : s.graceGroup = none
  chord : s.chord = none
  graces : (s.memory s.voices.noteVoice).graces = []
  tiedFrom : (s.memory s.voices.noteVoice).tiedFrom = []
  brokenNext : (s.memory s.voices.noteVoice).brokenNext = none
  accidentals : (s.memory s.voices.noteVoice).accidentals = inForce
  voice : s.voices.ensureActive.find? s.voices.noteVoice = some v
  others : ∀ w ∈ s.voices.ensureActive.voices, w.id ≠ s.voices.noteVoice → w.notes = []
  ids : s.voices.ensureActive.order.Nodup
  /-- Until a voice is active, nothing was read. -/
  silent : s.voices.active = none →
    inForce = [] ∧ v.notes = [] ∧ ∀ w ∈ s.voices.voices, w.notes = []

variable {s s' : MusicState Float} {v : Voice Float} {inForce : Accidentals}

theorem Idle.id (h : Idle s v inForce) : v.id = s.voices.noteVoice := VoiceTable.find?_id h.voice

/-- What is kept when the voice that notes go to changes and the cursor moves. -/
theorem Idle.moved (h : Idle s v inForce) (f : Voice Float → Voice Float) {beats : Float}
    {m : VoiceMemory Float} (hf : ∀ w, w.id = s.voices.noteVoice → (f w).id = s.voices.noteVoice)
    (hmemory : s'.memory s.voices.noteVoice = m)
    (hclosed : s'.tuplets = [] ∧ s'.graceGroup = none ∧ s'.chord = none)
    (hm : m.graces = [] ∧ m.tiedFrom = [] ∧ m.brokenNext = none)
    (hvoices : s'.voices = (s.voices.ensureActive.modify s.voices.noteVoice f).advance beats) :
    Idle s' (f v) m.accidentals ∧
      s'.voices.ensureActive.cursor = s.voices.ensureActive.cursor + beats := by
  have hactive : s'.voices.active = some s.voices.noteVoice := by
    rw [hvoices]
    exact s.voices.active_ensureActive
  have hnote : s'.voices.noteVoice = s.voices.noteVoice := VoiceTable.noteVoice_of_active hactive
  have hensure := VoiceTable.ensureActive_of_active hactive
  have hfind := VoiceTable.find?_modify (t := s.voices.ensureActive) f hf
  rw [h.voice] at hfind
  refine ⟨⟨hclosed.1,hclosed.2.1,hclosed.2.2,?_,?_,?_,?_,?_,?_,?_,?_⟩,?_⟩
  · rw [hnote, hmemory]; exact hm.1
  · rw [hnote, hmemory]; exact hm.2.1
  · rw [hnote, hmemory]; exact hm.2.2
  · rw [hnote, hmemory]
  · rw [hensure, hnote, hvoices]
    exact hfind
  · rw [hensure, hnote, hvoices]
    exact fun w hw hne => h.others w (VoiceTable.mem_modify hf hw hne) hne
  · rw [hensure, hvoices]
    exact (VoiceTable.order_modify f hf).symm ▸ h.ids
  · simp [hactive]
  · rw [hensure, hvoices]
    rfl

/-- A note that no tie goes on to is appended. -/
theorem place_untied (v : Voice Float) {m : VoiceMemory Float} (p : Placement Float)
    (part : Option Char) (h : m.tiedFrom = []) :
    ∃ n velocity, place v m p part = .ok (v.addNote n,{ m with velocity },v.notes.length) ∧
      n.pitch = v.soundingPitch p.written ∧ n.start = p.start := by
  unfold place
  rw [h]
  exact ⟨_,_,rfl,rfl,rfl⟩

theorem placeGraces_nil (v : Voice Float) (velocity : Int) (start principal : Float)
    (part : Option Char) : placeGraces v velocity [] start principal part = (v,0.0) := by
  unfold placeGraces
  have hzero : Beats.sum (([] : List (Grace Float)).map (·.beats)) ≤ 0.0 := by decide
  exact if_pos hzero

theorem addSingle_plain (s : MusicState Float) (v : Voice Float) (written : Int) (nominal : Float)
    (hgraces : (s.memory v.id).graces = []) (htied : (s.memory v.id).tiedFrom = [])
    (hbroken : (s.memory v.id).brokenNext = none) (htuplets : s.tuplets = []) :
    ∃ s' n, s.addSingle v written nominal = .ok (s',none) ∧
      (s'.tuplets = [] ∧ s'.graceGroup = s.graceGroup ∧ s'.chord = s.chord) ∧
      ((s'.memory v.id).graces = [] ∧ (s'.memory v.id).tiedFrom = [] ∧
        (s'.memory v.id).brokenNext = none) ∧
      (s'.memory v.id).accidentals = (s.memory v.id).accidentals ∧
      s'.voices = (s.voices.modify v.id fun _ => v.addNote n).advance (nominal * 1.0 * 1.0) ∧
      n.pitch = v.soundingPitch written ∧ n.start = s.voices.cursor + 0.0 := by
  obtain ⟨n,velocity,hplace,hpitch,hstart⟩ := place_untied v
    (m := { s.memory v.id with brokenNext := none, graces := [] })
    ⟨written,s.voices.cursor + 0.0,nominal * 1.0 * 1.0 - 0.0,s.decorations⟩ s.part htied
  dsimp only at hplace
  let m : VoiceMemory Float :=
    { s.memory v.id with
      velocity
      graces := []
      brokenNext := none
      tiedFrom := []
      lastGroup := [v.notes.length]
      lastAdvance := nominal * 1.0 * 1.0 }
  let s₁ : MusicState Float := { s with tuplets := [], decorations := [] }
  have hrun : s.addSingle v written nominal =
      .ok (((s₁.setMemory v.id m).setVoice (v.addNote n)).step (nominal * 1.0 * 1.0),none) := by
    unfold addSingle
    simp only [hgraces, hbroken, htuplets, placeGraces_nil, Option.getD_none, Tuplet.scaleAll,
      List.foldr_nil, hplace, ok_bind]
    rfl
  have hmemory : (((s₁.setMemory v.id m).setVoice (v.addNote n)).step
      (nominal * 1.0 * 1.0)).memory v.id = m := memory_setMemory s₁ v.id m
  refine ⟨_,n,hrun,⟨rfl,rfl,rfl⟩,?_,?_,rfl,hpitch,hstart⟩
  · rw [hmemory]
    exact ⟨rfl,rfl,rfl⟩
  · rw [hmemory]

/-- A note is appended where the cursor is. -/
theorem Idle.note (h : Idle s v inForce) {text : Text} {w : WrittenNote Float}
    (hw : WrittenNote.read? text = some w) (context : MusicContext Float) :
    ∃ s' n, s.note text context = .ok (s',none) ∧ Idle s' (v.addNote n) (w.mark inForce) ∧
      s'.voices.ensureActive.cursor =
        s.voices.ensureActive.cursor + context.beats w.length * 1.0 * 1.0 ∧
      n.pitch = v.soundingPitch (w.pitchAfter inForce context.key) ∧
      n.start = s.voices.ensureActive.cursor + 0.0 := by
  let m : VoiceMemory Float :=
    { s.memory s.voices.noteVoice with
      accidentals := w.mark (s.memory s.voices.noteVoice).accidentals }
  let s₁ : MusicState Float := { s with voices := s.voices.ensureActive }
  have hmemory : (s₁.setMemory s.voices.noteVoice m).memory v.id = m := by
    rw [h.id]
    exact memory_setMemory s₁ _ m
  obtain ⟨s',n,hadd,hclosed,hkept,haccidentals,hvoices,hpitch,hstart⟩ := addSingle_plain
    (s₁.setMemory s.voices.noteVoice m) v
    (w.pitchAfter (s.memory s.voices.noteVoice).accidentals context.key) (context.beats w.length)
    (by rw [hmemory]; exact h.graces) (by rw [hmemory]; exact h.tiedFrom)
    (by rw [hmemory]; exact h.brokenNext) h.tuplets
  have hnote : s.note text context = .ok (s',none) := by
    unfold MusicState.note
    rw [hw]
    dsimp only
    have hresolve : ({ s with voices := s.voices.ensureActive } : MusicState Float).memory
        s.voices.noteVoice = s.memory s.voices.noteVoice := rfl
    rw [hresolve, VoiceMemory.resolve_eq]
    dsimp only
    have hgrace : (s₁.setMemory s.voices.noteVoice m).graceGroup = none := h.graceGroup
    have hchord : (s₁.setMemory s.voices.noteVoice m).chord = none := h.chord
    have hvoice : (s₁.setMemory s.voices.noteVoice m).voices.find? s.voices.noteVoice = some v :=
      h.voice
    simp only [s₁, m] at hgrace hchord hvoice
    simp only [hgrace, hchord, hvoice]
    exact hadd
  have hinForce : (s'.memory s.voices.noteVoice).accidentals = w.mark inForce := by
    rw [← h.id, haccidentals, hmemory, ← h.accidentals]
  obtain ⟨hidle,hcursor⟩ := h.moved (fun _ => v.addNote n) (fun _ _ => h.id)
    (rfl : s'.memory s.voices.noteVoice = _)
    ⟨hclosed.1,hclosed.2.1.trans h.graceGroup,hclosed.2.2.trans h.chord⟩ (h.id ▸ hkept)
    (h.id ▸ hvoices)
  exact ⟨s',n,hnote,hinForce ▸ hidle,hcursor,by rw [hpitch, h.accidentals],hstart⟩

theorem Idle.rest (h : Idle s v inForce) {text : Text} {length : Float}
    (hlength : readLength? (text.drop 1) = some length) (context : MusicContext Float) :
    ∃ s', s.rest text context = .ok (s',none) ∧ Idle s' v inForce ∧
      s'.voices.ensureActive.cursor =
        s.voices.ensureActive.cursor + context.beats length * 1.0 * 1.0 := by
  let m : VoiceMemory Float :=
    { s.memory s.voices.noteVoice with
      brokenNext := none
      lastGroup := []
      tiedFrom := []
      lastAdvance := context.beats length * 1.0 * 1.0 }
  let s₁ : MusicState Float :=
    { s with
      voices := s.voices.ensureActive
      tuplets := []
      graceGroup := none
      chord := none
      decorations := [] }
  have hrest : s.rest text context =
      .ok ((s₁.setMemory s.voices.noteVoice m).step (context.beats length * 1.0 * 1.0),none) := by
    unfold MusicState.rest
    rw [h.graceGroup, h.chord, hlength]
    simp only [h.brokenNext, h.tuplets, Option.getD_none, Tuplet.scaleAll, List.foldr_nil]
    rfl
  have hmemory : ((s₁.setMemory s.voices.noteVoice m).step
      (context.beats length * 1.0 * 1.0)).memory s.voices.noteVoice = m := memory_setMemory s₁ _ m
  obtain ⟨hidle,hcursor⟩ := h.moved
    (fun w => w) (fun _ hw => hw) hmemory ⟨rfl,rfl,rfl⟩ ⟨h.graces,rfl,rfl⟩
    (by rw [VoiceTable.modify_self]; rfl)
  exact ⟨_,hrest,h.accidentals ▸ hidle,hcursor⟩

theorem Idle.multiRest (h : Idle s v inForce) {text : Text} {bars : Float}
    (hbars : barCount? (text.drop 1) = some bars) (context : MusicContext Float) :
    ∃ s', s.multiRest text context = .ok (s',none) ∧ Idle s' v inForce ∧
      s'.voices.ensureActive.cursor =
        s.voices.ensureActive.cursor + bars * context.meter.barBeats := by
  let m : VoiceMemory Float :=
    { s.memory s.voices.noteVoice with lastGroup := [], tiedFrom := [] }
  let s₁ : MusicState Float :=
    { s with voices := s.voices.ensureActive.advance (bars * context.meter.barBeats) }
  have hrest : s.multiRest text context = .ok (s₁.setMemory s.voices.noteVoice m,none) := by
    unfold MusicState.multiRest
    rw [hbars]
    rfl
  have hmemory : (s₁.setMemory s.voices.noteVoice m).memory s.voices.noteVoice = m :=
    memory_setMemory s₁ _ m
  obtain ⟨hidle,hcursor⟩ := h.moved
    (fun w => w) (fun _ hw => hw) hmemory ⟨h.tuplets,h.graceGroup,h.chord⟩
    ⟨h.graces,rfl,h.brokenNext⟩ (by rw [VoiceTable.modify_self]; rfl)
  exact ⟨_,hrest,h.accidentals ▸ hidle,hcursor⟩

/-- A bar line ends the accidentals in force, where there are any. -/
theorem Idle.barLine (h : Idle s v inForce) :
    ∃ s', s.barLine = .ok (s',none) ∧ Idle s' v [] ∧ s'.voices = s.voices := by
  cases hactive : s.voices.active with
  | none =>
    refine ⟨s,?_,?_,rfl⟩
    · unfold MusicState.barLine
      rw [hactive]
      rfl
    · exact (h.silent hactive).1 ▸ h
  | some id =>
    obtain rfl : s.voices.noteVoice = id := VoiceTable.noteVoice_of_active hactive
    let m : VoiceMemory Float := { s.memory s.voices.noteVoice with accidentals := [] }
    have hbar : s.barLine = .ok (s.setMemory s.voices.noteVoice m,none) := by
      unfold MusicState.barLine
      rw [hactive]
      rfl
    have hmemory : (s.setMemory s.voices.noteVoice m).memory s.voices.noteVoice = m :=
      memory_setMemory s _ m
    refine ⟨_,hbar,⟨h.tuplets,h.graceGroup,h.chord,?_,?_,?_,?_,h.voice,h.others,h.ids,?_⟩,rfl⟩
    · exact (congrArg VoiceMemory.graces hmemory).trans h.graces
    · exact (congrArg VoiceMemory.tiedFrom hmemory).trans h.tiedFrom
    · exact (congrArg VoiceMemory.brokenNext hmemory).trans h.brokenNext
    · exact congrArg VoiceMemory.accidentals hmemory
    · exact fun hnone => absurd (hactive.symm.trans hnone) (by simp)

/-! ## Reading a line -/

/-- Tokens of plain music, and marks of repeats, that can be understood. -/
def Readable (p : TokenKind × Text) : Prop :=
  match p.1 with
  | .note => ∃ w : WrittenNote Float, WrittenNote.read? p.2 = some w
  | .rest => ∃ length : Float, readLength? (p.2.drop 1) = some length
  | .multiRest => ∃ bars : Float, barCount? (p.2.drop 1) = some bars
  | .bar | .repeatStart | .repeatEnd | .space => True
  | _ => False

/-- What is read of some music: its notes are appended, and its accidentals count. -/
structure Reads (s : MusicState Float) (v : Voice Float) (inForce : Accidentals) (key : Key)
    (items : List Item) (notes : List (Note Float)) : Prop where
  idle : Idle s { v with notes := v.notes ++ notes } (Item.accidentalsAfter inForce items)
  inTime : InTime (v.notes ++ notes) s.voices.ensureActive.cursor
  pitches : notes.map (·.pitch) = (Item.pitches key inForce items).map v.soundingPitch

theorem Idle.reads_silence (h : Idle s v inForce)
    (ht : InTime v.notes s.voices.ensureActive.cursor) (key : Key) :
    Reads s v inForce key [] [] where
  idle := by
    rw [List.append_nil]
    exact h
  inTime := by
    rw [List.append_nil]
    exact ht
  pitches := rfl

theorem Idle.reads_barLine (h : Idle s v inForce)
    (ht : InTime v.notes s.voices.ensureActive.cursor) (key : Key) :
    ∃ s', s.barLine = .ok (s',none) ∧ Reads s' v inForce key [.barLine] [] := by
  obtain ⟨s',hbar,hidle,hvoices⟩ := h.barLine
  obtain ⟨hidle,ht,hpitches⟩ := hidle.reads_silence (hvoices ▸ ht) key
  exact ⟨s',hbar,hidle,ht,hpitches⟩

theorem Idle.handle (h : Idle s v inForce) (ht : InTime v.notes s.voices.ensureActive.cursor)
    (hcontext : context.Sound) {token : Token} (hr : Readable (token.kind,token.text)) :
    ∃ s' notes, s.handle token context = .ok (s',none) ∧
      Reads s' v inForce context.key (Item.read? (token.kind,token.text)).toList notes := by
  obtain ⟨kind,text,line,column,properties⟩ := token
  cases kind
  case note =>
    obtain ⟨w,hw⟩ := hr
    obtain ⟨s',n,hnote,hidle,hcursor,hpitch,hstart⟩ := h.note hw context
    have hbeats := hcontext.nonneg_beats (WrittenNote.read?_pos hw)
    have hitem : Item.read? (.note,text) = some (.note w) := congrArg (Option.map Item.note) hw
    refine ⟨s',[n],hnote,?_,?_,?_⟩
    · rw [hitem]
      exact hidle
    · rw [hcursor]
      exact ht.append hstart hbeats
    · rw [hitem]
      exact congrArg (fun p => [p]) hpitch
  case rest =>
    obtain ⟨length,hlength⟩ := hr
    obtain ⟨s',hrest,hidle,hcursor⟩ := h.rest hlength context
    have hbeats := hcontext.nonneg_beats (readLength?_pos hlength)
    exact ⟨s',[],hrest,hidle.reads_silence (hcursor ▸ ht.advance hbeats) context.key⟩
  case multiRest =>
    obtain ⟨bars,hbars⟩ := hr
    obtain ⟨s',hrest,hidle,hcursor⟩ := h.multiRest hbars context
    have hbeats := hcontext.nonneg_bars hbars
    exact ⟨s',[],hrest,hidle.reads_silence (hcursor ▸ ht.advance hbeats) context.key⟩
  case space => exact ⟨s,[],rfl,h.reads_silence ht context.key⟩
  case bar | repeatStart | repeatEnd =>
    obtain ⟨s',hbar,hreads⟩ := h.reads_barLine ht context.key
    exact ⟨s',[],hbar,hreads⟩
  all_goals exact hr.elim

/-- What can be read without a problem was understood. -/
theorem readable_of_handle {token : Token} (hkind : Token.isPlainKind token.kind = true)
    (h : s.handle token context = .ok (s',none)) : Readable (token.kind,token.text) := by
  obtain ⟨kind,text,line,column,properties⟩ := token
  cases kind
  case note =>
    change s.note text context = _ at h
    unfold MusicState.note at h
    cases hw : (WrittenNote.read? text : Option (WrittenNote Float)) with
    | none =>
      rw [hw] at h
      cases h
    | some w => exact ⟨w,hw⟩
  case rest =>
    change s.rest text context = _ at h
    unfold MusicState.rest at h
    split at h
    · cases h
    · cases hlength : (readLength? (text.drop 1) : Option Float) with
      | none =>
        rw [hlength] at h
        cases h
      | some length => exact ⟨length,hlength⟩
  case multiRest =>
    change s.multiRest text context = _ at h
    unfold MusicState.multiRest at h
    cases hbars : (barCount? (text.drop 1) : Option Float) with
    | none =>
      rw [hbars] at h
      cases h
    | some bars => exact ⟨bars,hbars⟩
  case bar => trivial
  case space => trivial
  all_goals cases hkind

theorem Idle.handleAll (h : Idle s v inForce) (ht : InTime v.notes s.voices.ensureActive.cursor)
    (hcontext : context.Sound) {tokens : List Token}
    (hr : ∀ token ∈ tokens, Readable (token.kind,token.text)) :
    ∃ s' notes, s.handleAll context tokens = .ok (s',tokens.map fun _ => none) ∧
      Reads s' v inForce context.key
        (tokens.filterMap fun token => Item.read? (token.kind,token.text)) notes := by
  induction tokens generalizing s v inForce with
  | nil => exact ⟨s,[],rfl,h.reads_silence ht context.key⟩
  | cons token rest ih =>
    obtain ⟨s₁,notes₁,h₁,hreads₁⟩ := h.handle ht hcontext (hr token List.mem_cons_self)
    obtain ⟨s₂,notes₂,h₂,hreads₂⟩ := ih hreads₁.idle hreads₁.inTime
      fun token htoken => hr token (List.mem_cons_of_mem _ htoken)
    have hitems : ((token :: rest).filterMap fun token => Item.read? (token.kind,token.text)) =
        (Item.read? (token.kind,token.text)).toList ++
          rest.filterMap fun token => Item.read? (token.kind,token.text) := by
      cases hitem : Item.read? (token.kind,token.text) <;> simp [hitem]
    refine ⟨s₂,notes₁ ++ notes₂,?_,?_,?_,?_⟩
    · rw [MusicState.handleAll, h₁, ok_bind]
      simp only [h₂, ok_bind]
      rfl
    · rw [hitems, Item.accidentalsAfter_append, ← List.append_assoc]
      exact hreads₂.idle
    · rw [← List.append_assoc]
      exact hreads₂.inTime
    · rw [hitems, Item.pitches_append, List.map_append, List.map_append, hreads₁.pitches,
        hreads₂.pitches]
      rfl

/-- Plain music in which no problem was found was understood. -/
theorem Idle.readable (h : Idle s v inForce) (ht : InTime v.notes s.voices.ensureActive.cursor)
    (hcontext : context.Sound) {tokens : List Token} {outcomes : List (Option Diagnostic)}
    (hkinds : ∀ token ∈ tokens, Token.isPlainKind token.kind = true)
    (hall : s.handleAll context tokens = .ok (s',outcomes)) (hnone : ∀ o ∈ outcomes, o = none) :
    ∀ token ∈ tokens, Readable (token.kind,token.text) := by
  induction tokens generalizing s v inForce outcomes with
  | nil => simp
  | cons token rest ih =>
    rw [MusicState.handleAll] at hall
    cases hfirst : s.handle token context with
    | error e =>
      rw [hfirst] at hall
      cases hall
    | ok handled =>
      obtain ⟨s₁,problem⟩ := handled
      rw [hfirst, ok_bind] at hall
      dsimp only at hall
      cases hrest : s₁.handleAll context rest with
      | error e =>
        rw [hrest] at hall
        cases hall
      | ok handled =>
        obtain ⟨s₂,others⟩ := handled
        rw [hrest, ok_bind] at hall
        obtain ⟨rfl,rfl⟩ := Prod.mk.inj (Except.ok.inj hall)
        have hproblem : problem = none := Option.map_eq_none_iff.mp (hnone _ List.mem_cons_self)
        subst hproblem
        have htoken := readable_of_handle (hkinds token List.mem_cons_self) hfirst
        obtain ⟨s₁',notes,h₁,hreads⟩ := h.handle ht hcontext htoken
        obtain ⟨rfl,-⟩ := Prod.mk.inj (Except.ok.inj (hfirst.symm.trans h₁))
        have hothers := ih hreads.idle hreads.inTime
          (fun token htoken => hkinds token (List.mem_cons_of_mem _ htoken)) hrest
          fun o ho => hnone o (List.mem_cons_of_mem _ ho)
        exact List.forall_mem_cons.mpr ⟨htoken,hothers⟩

end MusicState
end AbcTune
