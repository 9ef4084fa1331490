import AbcTune.Proofs.Tune.Body

/-! # Plain music and its repeat

A repeat is written out as text, and its marks are gone before accidentals are counted. So the
second pass starts with the accidentals that the first one leaves behind: it sounds like the first
one exactly when they do not disturb the opening bar.
-/
namespace AbcTune

open MusicState (Readable)
open Token (PlainMusic symbols)

/-! ## Symbols of a repeat -/

/-- A line of music as a repeat. -/
def repeated (music : Text) : Text := ['|', ':', ' '] ++ music ++ [' ', ':', '|']

/-- What a line of music is made of for its pitches. -/
def Item.ofText (music : Text) : List Item := (symbols music).filterMap Item.read?

/-- The music between blanks, as it stands in a repeat. -/
def spaced (music : Text) : Text := [' '] ++ music ++ [' ']

theorem repeated_eq (music : Text) :
    repeated music = Repeat.opening ++ spaced music ++ Repeat.closing := by
  simp [repeated, spaced, Repeat.opening, Repeat.closing]

theorem symbols_spaced {music : Text} (h : PlainMusic music) :
    symbols (spaced music) = symbols music := by
  have hfiller := Token.symbols_filler (c := ' ') (by decide) (music ++ [' '])
  have hspaced := h.symbols_append []
  rw [Token.symbols_nil, List.append_nil] at hspaced
  exact hfiller.trans hspaced

theorem symbols_twice {music : Text} (h : PlainMusic music) :
    symbols (spaced music ++ spaced music) = symbols music ++ symbols music := by
  have hfiller := Token.symbols_filler (c := ' ') (by decide) (music ++ ' ' :: spaced music)
  have htwice := h.symbols_append (spaced music)
  rw [symbols_spaced h] at htwice
  rw [← htwice, ← hfiller]
  simp [spaced]

theorem symbols_repeated {music : Text} (h : PlainMusic music) :
    symbols (repeated music) =
      (.repeatStart,['|', ':']) :: symbols music ++ [(.repeatEnd,[':', '|'])] := by
  have hend : symbols [':', '|'] = [(.repeatEnd,[':', '|'])] := by decide +kernel
  have hmusic := h.symbols_append [':', '|']
  have hfiller := Token.symbols_filler (c := ' ') (by decide) (music ++ [' ', ':', '|'])
  have hstart : ∀ t, symbols ('|' :: ':' :: t) = (.repeatStart,['|', ':']) :: symbols t := by
    intro t
    unfold symbols
    rw [Token.musicTokens_cons]
    change _ :: Token.signs (Token.musicTokens 1 3 t) = _
    rw [Token.signs_musicTokens 1 3 1 1]
    rfl
  rw [hend] at hmusic
  rw [List.cons_append, ← hmusic, ← hfiller, ← hstart]
  simp [repeated]

/-! ## Lines of a repeat -/

variable {music : Text}

theorem notMem_spaced (h : PlainMusic music) {x : Char} (hx : x ∈ [':', 'V', '%', '\n', '\r']) :
    x ∉ spaced music := by
  have hblank : x ≠ ' ' := by
    rintro rfl
    revert hx
    decide
  simp [spaced, hblank, h.notMem hx]

theorem freeOf_spaced (h : PlainMusic music) {a : Char} (ha : a = '|' ∨ a = '[') :
    Text.FreeOf a '1' (spaced music) := by
  have hblank : ' ' ≠ a := by rcases ha with rfl | rfl <;> decide
  have hlead : Text.FreeOf a '1' ([' '] ++ music) :=
    Text.freeOf_append.mpr ⟨by simp,h.freeOf_one ha,by simp [hblank]⟩
  exact Text.freeOf_append.mpr ⟨hlead,by simp,by simp⟩

theorem isFieldLine_of_notMem {t : Text} (h : ':' ∉ t) : isFieldLine t = false := by
  unfold isFieldLine
  split
  · exact absurd (List.mem_cons_of_mem _ List.mem_cons_self) h
  · rfl

structure MusicLine (t : Text) : Prop where
  noFeed : '\n' ∉ t
  noReturn : '\r' ∉ t
  noPercent : '%' ∉ t
  noField : isFieldLine t = false

theorem MusicLine.tokenize_eq {t : Text} (h : MusicLine t) (line : Nat) :
    Token.tokenize t line = Token.musicTokens line 1 t :=
  Token.tokenize_music h.noFeed h.noReturn h.noPercent h.noField line

theorem musicLine_plain (h : PlainMusic music) : MusicLine music :=
  ⟨h.notMem (by decide),h.notMem (by decide),h.notMem (by decide),
    isFieldLine_of_notMem (h.notMem (by decide))⟩

theorem musicLine_twice (h : PlainMusic music) : MusicLine (spaced music ++ spaced music) := by
  have hnotMem {x : Char} (hx : x ∈ [':', 'V', '%', '\n', '\r']) :
      x ∉ spaced music ++ spaced music := by
    simp [notMem_spaced h hx]
  exact ⟨hnotMem (by decide),hnotMem (by decide),hnotMem (by decide),
    isFieldLine_of_notMem (hnotMem (by decide))⟩

theorem musicLine_repeated (h : PlainMusic music) : MusicLine (repeated music) := by
  refine ⟨?_,?_,?_,rfl⟩
  · simp [repeated, h.notMem (x := '\n') (by decide)]
  · simp [repeated, h.notMem (x := '\r') (by decide)]
  · simp [repeated, h.notMem (x := '%') (by decide)]

/-! ## Reading a header and one line -/

theorem Repeat.IsHeader.hasKeyLine {header : Text} (h : Repeat.IsHeader header) (body : Text) :
    AbcTune.hasKeyLine (header ++ body) = true := by
  have hkey : ∀ blocks head rest, Repeat.splitAtKey blocks = some (head,rest) →
      ∃ block ∈ blocks, Repeat.isKeyLine block = true := by
    intro blocks
    induction blocks with
    | nil => exact fun _ _ hsplit => by cases hsplit
    | cons block blocks ih =>
      intro head rest hsplit
      rw [Repeat.splitAtKey] at hsplit
      split at hsplit
      · next hkey => exact ⟨block,List.mem_cons_self,hkey⟩
      · obtain ⟨⟨head',rest'⟩,hrest,-⟩ := Option.map_eq_some_iff.mp hsplit
        obtain ⟨block',hmem,hkey⟩ := ih head' rest' hrest
        exact ⟨block',List.mem_cons_of_mem _ hmem,hkey⟩
  obtain ⟨block,hmem,hblock⟩ := hkey _ _ _ h.1
  obtain ⟨e,he,hline⟩ := Text.exists_lineEnd block
  rw [hline, Repeat.isKeyLine_append _ (Token.isLineBreak_of_mem_lineEnds he)] at hblock
  rw [AbcTune.hasKeyLine, Text.lines_append h.2, List.any_append, Bool.or_eq_true]
  exact .inl (List.any_eq_true.mpr ⟨_,List.mem_map_of_mem hmem,hblock⟩)

namespace Tune

variable {header lineEnd : Text}

def readHeader (header : Text) (problems : List Diagnostic) : Except Fault TuneReading :=
  ((TuneReading.initial true).report problems).readLines (numberLines 1 (Text.lines header))

theorem read_line (hheader : Repeat.IsHeader header) (hend : lineEnd ∈ Text.lineEnds) {t : Text}
    (ht : MusicLine t) {source : Text} {problems : List Diagnostic}
    (hexpand : expandSource source = .ok (header ++ (t ++ lineEnd),problems)) :
    Tune.read source = readHeader header problems >>= fun r =>
      (r.readLine t (1 + (Text.lines header).length)).map TuneReading.finish := by
  rw [Tune.read, hexpand]
  change (TuneReading.readLines _ _ >>= fun r => Except.ok r.finish) = _
  rw [hheader.hasKeyLine, Text.lines_append hheader.2, numberLines_append,
    TuneReading.readLines_append, readHeader]
  cases ((TuneReading.initial true).report problems).readLines
      (numberLines 1 (Text.lines header)) with
  | error e => rfl
  | ok r =>
    rw [ok_bind, ok_bind, Text.lines_line ht.noFeed ht.noReturn hend]
    split
    · next hnil =>
      obtain ⟨rfl,-⟩ := List.append_eq_nil_iff.mp hnil
      have hline : r.readLine [] (1 + (Text.lines header).length) = .ok r := by
        rw [TuneReading.readLine, ht.tokenize_eq, Token.musicTokens]
        rfl
      rw [hline]
      rfl
    · rw [numberLines, numberLines, TuneReading.readLines]
      cases r.readLine t (1 + (Text.lines header).length) <;> rfl

theorem exists_readLine (hheader : Repeat.IsHeader header) (hend : lineEnd ∈ Text.lineEnds)
    {t : Text} (ht : MusicLine t) {source : Text} {problems : List Diagnostic}
    (hexpand : expandSource source = .ok (header ++ (t ++ lineEnd),problems)) {tune : Tune Float}
    (h : Tune.read source = .ok tune) :
    ∃ r r', readHeader header problems = .ok r ∧
      r.readLine t (1 + (Text.lines header).length) = .ok r' ∧ tune = r'.finish := by
  rw [read_line hheader hend ht hexpand] at h
  cases hread : readHeader header problems with
  | error e =>
    rw [hread] at h
    cases h
  | ok r =>
    rw [hread, ok_bind] at h
    cases hr : r.readLine t (1 + (Text.lines header).length) with
    | error e =>
      rw [hr] at h
      cases h
    | ok r' =>
      rw [hr] at h
      exact ⟨r,r',rfl,hr,(Except.ok.inj h).symm⟩

/-! ## What is read of a repeat -/

theorem expandSource_plain (hheader : Repeat.IsHeader header) (hend : lineEnd ∈ Text.lineEnds)
    (h : PlainMusic music) :
    expandSource (header ++ (music ++ lineEnd)) = .ok (header ++ (music ++ lineEnd),[]) := by
  have hends : ∀ e ∈ Text.lineEnds, ':' ∉ e ∧ 'V' ∉ e := by decide
  obtain ⟨hcolon,hvoice⟩ := hends lineEnd hend
  have hbody : 'V' ∉ music ++ lineEnd := by simp [hvoice, h.notMem]
  have hmarks : ':' ∉ music ++ lineEnd := by simp [hcolon, h.notMem]
  rw [expandSource, hheader.expand hbody, Repeat.expandSection_of_notMem hmarks]
  rfl

/-- A line of music that is written out as a repeat stays within the size of a section. -/
def Fits (music lineEnd : Text) : Prop :=
  2 * (Text.byteLength music + 2) + Text.byteLength lineEnd ≤ Repeat.mostBytes

instance (music lineEnd : Text) : Decidable (Fits music lineEnd) :=
  inferInstanceAs (Decidable (_ ≤ _))

/-- A repeat is read as its music twice, or as it stands where there is no room for that. -/
theorem expandSource_repeated (hheader : Repeat.IsHeader header) (hend : lineEnd ∈ Text.lineEnds)
    (h : PlainMusic music) :
    (Fits music lineEnd → expandSource (header ++ (repeated music ++ lineEnd)) =
      .ok (header ++ (spaced music ++ spaced music ++ lineEnd),[])) ∧
    (¬Fits music lineEnd → expandSource (header ++ (repeated music ++ lineEnd)) =
      .ok (header ++ (repeated music ++ lineEnd),[.repeatLimit Repeat.mostExpansions])) := by
  have hends : ∀ e ∈ Text.lineEnds, ':' ∉ e ∧ 'V' ∉ e := by decide
  obtain ⟨hcolon,hvoice⟩ := hends lineEnd hend
  have hbody : 'V' ∉ repeated music ++ lineEnd := by simp [repeated, hvoice, h.notMem]
  have hne : spaced music ≠ [] := by simp [spaced]
  have hexpand := Repeat.expandSection_repeated lineEnd hne (notMem_spaced h (by decide))
    (by simp [spaced]) hcolon (freeOf_spaced h (.inr rfl)) (freeOf_spaced h (.inl rfl))
  have hsize : Text.byteLength (spaced music ++ spaced music ++ lineEnd) =
      2 * (Text.byteLength music + 2) + Text.byteLength lineEnd := by
    have hblank : (' ' : Char).utf8Size = 1 := by decide
    simp only [spaced, Text.byteLength_append, Text.byteLength_cons, Text.byteLength_nil, hblank]
    omega
  rw [hsize] at hexpand
  rw [expandSource, hheader.expand hbody, repeated_eq, hexpand]
  constructor
  · intro hfits
    rw [if_neg (Nat.not_lt.mpr hfits)]
    rfl
  · intro hfits
    rw [if_pos (Nat.not_le.mp hfits)]
    rfl

/-! ## What a line sounds like -/

/-- The pitches of a tune in the order of playing. -/
def pitches (t : Tune Float) : List Nat := t.events.map (·.pitch)

/-- A tune in which one voice sounds some music in a key. -/
structure Sounds (t : Tune Float) (v : Voice Float) (key : Key) (items : List Item) : Prop where
  pitches : t.pitches = (Item.pitches key [] items).map v.soundingPitch
  voices : ∀ w ∈ t.voices, w.notes ≠ [] → w.soundingPitch = v.soundingPitch
  voice : t.events ≠ [] → ∃ w ∈ t.voices, w.notes ≠ [] ∧ w.soundingPitch = v.soundingPitch

/-- A header was read, and the music starts in a voice. -/
structure Ready (r : TuneReading) (v : Voice Float) : Prop where
  opened : r.Opened
  unparted : r.draft.Unparted
  idle : MusicState.Idle r.music v []
  noNotes : v.notes = []
  inTime : InTime v.notes r.music.voices.ensureActive.cursor

section Ready
variable {r r' : TuneReading} {v : Voice Float}

theorem Ready.sounds (h : Ready r v) {items : List Item} {notes : List (Note Float)}
    (hreads : TuneReading.ReadsLine r v items r' notes) :
    Sounds r'.finish v r.settings.heading.key items := by
  have hunparted : r'.draft.Unparted := by
    have hparts := h.unparted
    unfold Unparted at hparts ⊢
    change r'.settings.heading.partSequence.getD [] = []
    rw [hreads.heading]
    exact hparts
  obtain ⟨hplays,-,-⟩ := TuneReading.finish_of_idle hreads.reads.idle hreads.reads.inTime
    (hreads.sections.trans h.opened.sections) hunparted
  have hevents : r'.finish.events = notes := by
    rw [hplays.events, h.noNotes]
    rfl
  refine ⟨?_,hplays.voices,fun hne => hplays.voice (hplays.events ▸ hne)⟩
  rw [Tune.pitches, hevents, hreads.reads.pitches, h.opened.key]

/-- Problems with the repeats make no difference to what a header comes to. -/
theorem readHeader_eq (header : Text) (problems : List Diagnostic) :
    readHeader header problems = (readHeader header []).map (·.under problems) := by
  rw [readHeader, readHeader, ← TuneReading.readLines_under]
  simp [TuneReading.report, TuneReading.under, TuneReading.initial]

theorem Ready.read (h : Ready r v) (hread : readHeader header [] = .ok r)
    (hheader : Repeat.IsHeader header) (hend : lineEnd ∈ Text.lineEnds) {t : Text}
    (ht : MusicLine t) (hreadable : ∀ p ∈ symbols t, Readable p) {source : Text}
    {problems : List Diagnostic}
    (hexpand : expandSource source = .ok (header ++ (t ++ lineEnd),problems)) :
    ∃ tune, Tune.read source = .ok tune ∧ Sounds tune v r.settings.heading.key (Item.ofText t) := by
  have hopened : (r.under problems).Opened :=
    { fields := h.opened.fields
      music := h.opened.music
      sections := h.opened.sections
      stage := h.opened.stage
      key := h.opened.key }
  have hready : Ready (r.under problems) v := ⟨hopened,h.unparted,h.idle,h.noNotes,h.inTime⟩
  obtain ⟨r',notes,hline,hreads⟩ := TuneReading.readLine_of_readable hopened.stage
    hopened.fields.sound h.idle h.inTime (ht.tokenize_eq _) hreadable
  refine ⟨r'.finish,?_,hready.sounds hreads⟩
  rw [read_line hheader hend ht hexpand, readHeader_eq, hread]
  change ((r.under problems).readLine t _).map TuneReading.finish = _
  rw [hline]
  rfl

end Ready

/-- Plain music that is read without a problem is understood, and starts behind a header that is
understood as well. -/
theorem exists_ready (hheader : Repeat.IsHeader header) (hmusic : PlainMusic music)
    (hend : lineEnd ∈ Text.lineEnds) {plain : Tune Float}
    (hplain : Tune.read (header ++ (music ++ lineEnd)) = .ok plain)
    (hnone : plain.diagnostics = []) :
    ∃ r v, readHeader header [] = .ok r ∧ Ready r v ∧ (∀ p ∈ symbols music, Readable p) ∧
      r.settings.heading = plain.heading := by
  have hline := musicLine_plain hmusic
  obtain ⟨r,r',hread,hr,rfl⟩ :=
    exists_readLine hheader hend hline (expandSource_plain hheader hend hmusic) hplain
  have hquiet : r'.diagnostics = [] := (List.append_eq_nil_iff.mp hnone).1
  have hquietHeader : r.diagnostics = [] := by
    obtain ⟨ds,hds⟩ := TuneReading.exists_diagnostics hr
    rw [hquiet] at hds
    exact (List.append_eq_nil_iff.mp hds.symm).1
  have hopened : r.Opened := ((TuneReading.untouched_initial true).report []).readHeader rfl
    hheader.1 hread hquietHeader
  obtain ⟨v,hidle,hv,htime⟩ := hopened.idle
  -- silence about the line says that its tokens are understood, and with that what it comes to
  have hreadable := TuneReading.readable_of_readLine hopened.stage hopened.fields.sound hidle
    htime hmusic (hline.tokenize_eq _) hr hquiet
  obtain ⟨r'',notes,hr',hreads⟩ := TuneReading.readLine_of_readable hopened.stage
    hopened.fields.sound hidle htime (hline.tokenize_eq _) hreadable
  obtain rfl := Except.ok.inj (hr.symm.trans hr')
  have hsections := hreads.sections.trans hopened.sections
  have hunparted := (TuneReading.unparted_of_finish hsections hnone).2
  obtain ⟨-,hheading,-⟩ :=
    TuneReading.finish_of_idle hreads.reads.idle hreads.reads.inTime hsections hunparted
  have hunparted' : r.draft.Unparted := by
    unfold Unparted at hunparted ⊢
    change r'.settings.heading.partSequence.getD [] = [] at hunparted
    rwa [hreads.heading] at hunparted
  exact ⟨r,v,hread,⟨hopened,hunparted',hidle,hv,htime⟩,hreadable,
    (hheading.trans hreads.heading).symm⟩

/-! ## Both passes -/

/-- The voices of a tune that have notes sound the opening bar of some music the same after that
music as at its start. -/
def Unspoilt (t : Tune Float) (items : List Item) : Prop :=
  ∀ v ∈ t.voices, v.notes ≠ [] →
    Undisturbed v.soundingPitch t.heading.key (Item.accidentalsAfter [] items)
      (Item.openingBar items)

theorem Sounds.events_eq_nil_iff {t : Tune Float} {v : Voice Float} {key : Key}
    {items : List Item} (h : Sounds t v key items) :
    t.events = [] ↔ Item.pitches key [] items = [] := by
  have hpitches := h.pitches
  rw [Tune.pitches] at hpitches
  rw [← List.map_eq_nil_iff (f := (·.pitch)), hpitches, List.map_eq_nil_iff]

/-- Music that is written twice sounds twice exactly when it leaves its opening bar as it is. -/
theorem Sounds.twice_iff {plain twice : Tune Float} {v : Voice Float} {items : List Item}
    (hplain : Sounds plain v plain.heading.key items)
    (htwice : Sounds twice v plain.heading.key (items ++ items)) :
    twice.pitches = plain.pitches ++ plain.pitches ↔
      plain.events = [] ∨ plain.Unspoilt items := by
  have hboth : twice.pitches = plain.pitches ++ plain.pitches ↔
      Undisturbed v.soundingPitch plain.heading.key (Item.accidentalsAfter [] items)
        (Item.openingBar items) := by
    rw [htwice.pitches, hplain.pitches, Item.pitches_append, List.map_append,
      List.append_right_inj]
    exact Item.map_pitches_eq_iff items
  rw [hboth]
  constructor
  · exact fun hopening => .inr fun w hw hne => hplain.voices w hw hne ▸ hopening
  · intro h
    by_cases hevents : plain.events = []
    · have hbar := Item.openingBar_eq_nil (hplain.events_eq_nil_iff.mp hevents)
      rw [hbar]
      exact fun before w after h => absurd h (by simp)
    · obtain ⟨w,hw,hne,hsound⟩ := hplain.voice hevents
      exact hsound ▸ h.resolve_left hevents w hw hne

/-- Where a line of plain music is read without a problem, its repeat is read as well, and sounds
like the music twice exactly when the repeat can be written out and the accidentals at the end of
the music do not change its opening bar. -/
theorem read_repeated (hheader : Repeat.IsHeader header) (hmusic : PlainMusic music)
    (hend : lineEnd ∈ Text.lineEnds) {plain : Tune Float}
    (hplain : Tune.read (header ++ (music ++ lineEnd)) = .ok plain)
    (hnone : plain.diagnostics = []) :
    ∃ twice, Tune.read (header ++ (repeated music ++ lineEnd)) = .ok twice ∧
      (twice.pitches = plain.pitches ++ plain.pitches ↔
        plain.events = [] ∨ Fits music lineEnd ∧ plain.Unspoilt (Item.ofText music)) := by
  obtain ⟨r,v,hread,hready,hreadable,hheading⟩ :=
    exists_ready hheader hmusic hend hplain hnone
  obtain ⟨plain',hplain',hsounds⟩ := hready.read hread hheader hend (musicLine_plain hmusic)
    hreadable (expandSource_plain hheader hend hmusic)
  obtain rfl := Except.ok.inj (hplain.symm.trans hplain')
  rw [hheading] at hsounds
  obtain ⟨hwritten,hraw⟩ := expandSource_repeated hheader hend hmusic
  by_cases hfits : Fits music lineEnd
  · have hreadable' : ∀ p ∈ symbols (spaced music ++ spaced music), Readable p := by
      rw [symbols_twice hmusic]
      exact fun p hp => hreadable p (or_self_iff.mp (List.mem_append.mp hp))
    obtain ⟨twice,htwice,hsounds'⟩ := hready.read hread hheader hend (musicLine_twice hmusic)
      hreadable' (hwritten hfits)
    rw [hheading, Item.ofText, symbols_twice hmusic, List.filterMap_append] at hsounds'
    refine ⟨twice,htwice,(hsounds.twice_iff hsounds').trans ?_⟩
    simp [hfits]
  · have hreadable' : ∀ p ∈ symbols (repeated music), Readable p := by
      rw [symbols_repeated hmusic]
      simp only [List.cons_append, List.forall_mem_cons, List.forall_mem_append]
      exact ⟨trivial,hreadable,trivial,fun _ hp => absurd hp List.not_mem_nil⟩
    obtain ⟨twice,htwice,hsounds'⟩ := hready.read hread hheader hend (musicLine_repeated hmusic)
      hreadable' (hraw hfits)
    refine ⟨twice,htwice,?_⟩
    have hitems : Item.ofText (repeated music) = .barLine :: Item.ofText music ++ [.barLine] := by
      rw [Item.ofText, symbols_repeated hmusic, List.filterMap_append]
      rfl
    have honce : twice.pitches = plain.pitches := by
      rw [hsounds'.pitches, hsounds.pitches, hitems, hheading, Item.pitches_append]
      simp [Item.pitches]
    rw [honce]
    simp [hfits, Tune.pitches]

/-! ## Evaluation -/

theorem events_of_read {source : Text} {t : Tune Float} (h : Tune.read source = .ok t) :
    t.events = t.mergeVoices := by
  rw [read_eq] at h
  cases hread : TuneReading.ofSource source with
  | error e =>
    rw [hread] at h
    cases h
  | ok r =>
    rw [hread] at h
    cases h
    rfl

/-- The pitches of a text that is read without a problem, if its notes need not be sorted. -/
def inOrder? (source : Text) : Option (List Nat) :=
  match Tune.read source with
  | .error _ => none
  | .ok t =>
    let notes := t.orderedVoices.flatMap (·.notes)
    if t.diagnostics.isEmpty ∧ notes.Pairwise fun m n => Beats.sortsBefore m.start n.start = true
    then some (notes.map (·.pitch)) else none

theorem read_of_inOrder? {source : Text} {ps : List Nat} (h : inOrder? source = some ps) :
    ∃ t, Tune.read source = .ok t ∧ t.diagnostics = [] ∧ t.pitches = ps := by
  unfold inOrder? at h
  split at h
  · cases h
  · next t hread =>
    dsimp only at h
    split at h
    · next hquiet =>
      refine ⟨t,hread,List.isEmpty_iff.mp hquiet.1,?_⟩
      rw [pitches, events_of_read hread, mergeVoices, sortNotes,
        List.mergeSort_of_pairwise hquiet.2]
      exact Option.some.inj h
    · cases h

/-- A sharp that a bar line ends does not reach the second pass. -/
theorem read_repeated_barLine :
    ∃ plain twice, Tune.read "X:1\nL:1/4\nK:C\nC ^C | C\n".toList = .ok plain ∧
      plain.diagnostics = [] ∧ plain.pitches = [60, 61, 60] ∧
      Tune.read "X:1\nL:1/4\nK:C\n|: C ^C | C :|\n".toList = .ok twice ∧
      twice.pitches = plain.pitches ++ plain.pitches := by
  have hevaluated : inOrder? "X:1\nL:1/4\nK:C\nC ^C | C\n".toList = some [60, 61, 60] := by
    decide +kernel
  obtain ⟨plain,hplain,hnone,hpitches⟩ := read_of_inOrder? hevaluated
  have hheader : Repeat.IsHeader "X:1\nL:1/4\nK:C\n".toList := by decide +kernel
  have hmusic : PlainMusic "C ^C | C".toList := by decide +kernel
  have hend : ['\n'] ∈ Text.lineEnds := by decide
  obtain ⟨twice,htwice,hiff⟩ := read_repeated hheader hmusic hend hplain hnone
  have hended : Item.accidentalsAfter [] (Item.ofText "C ^C | C".toList) = [] := by decide +kernel
  refine ⟨plain,twice,hplain,hnone,hpitches,htwice,hiff.mpr (.inr ⟨by decide +kernel,?_⟩)⟩
  intro v _ _
  rw [hended]
  exact undisturbed_nil

/-- A sharp in the last bar of some music is heard in the second pass, where it was not written. -/
theorem read_repeated_sharp :
    Repeat.IsHeader "X:1\nL:1/4\nK:C\n".toList ∧ PlainMusic "C ^C".toList ∧
      ∃ plain twice, Tune.read ("X:1\nL:1/4\nK:C\n".toList ++ ("C ^C".toList ++ ['\n'])) =
        .ok plain ∧ plain.diagnostics = [] ∧
      Tune.read ("X:1\nL:1/4\nK:C\n".toList ++ (repeated "C ^C".toList ++ ['\n'])) = .ok twice ∧
      twice.pitches ≠ plain.pitches ++ plain.pitches := by
  have hplain : inOrder? ("X:1\nL:1/4\nK:C\n".toList ++ ("C ^C".toList ++ ['\n'])) =
      some [60, 61] := by decide +kernel
  have htwice : inOrder? ("X:1\nL:1/4\nK:C\n".toList ++ (repeated "C ^C".toList ++ ['\n'])) =
      some [60, 61, 61, 61] := by decide +kernel
  obtain ⟨plain,hplain,hnone,hpitches⟩ := read_of_inOrder? hplain
  obtain ⟨twice,htwice,-,hpitches'⟩ := read_of_inOrder? htwice
  refine ⟨by decide +kernel,by decide +kernel,plain,twice,hplain,hnone,htwice,?_⟩
  rw [hpitches, hpitches']
  decide

end Tune
end AbcTune
