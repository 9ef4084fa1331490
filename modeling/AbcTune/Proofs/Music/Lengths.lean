import AbcTune.Proofs.Beat.Span
import AbcTune.Proofs.Field

/-! # Lengths of moderate music

Where numbers have few digits and the unit length is moderate, so is every length that is written:
of a note with its divisors, of a bar of rest, and of a note in tuplets and broken rhythm.
-/
namespace AbcTune

open Number

/-! ## Numbers of few digits -/

/-- The most digits that the numbers of a token may have. -/
def mostDigits : Nat := 9

theorem Number.ofDigits_lt {t : Text} (h : ∀ c ∈ t, c.isDigit = true) :
    ofDigits t < 10 ^ t.length := by
  have hfold (sofar : Nat) :
      t.foldl (fun n c => n * 10 + (c.toNat - 48)) sofar < (sofar + 1) * 10 ^ t.length := by
    induction t generalizing sofar with
    | nil => simp
    | cons c t ih =>
      obtain ⟨hc,ht⟩ := List.forall_mem_cons.mp h
      have hdigit : c.toNat - 48 ≤ 9 := by
        simp only [Char.isDigit, Bool.and_eq_true, decide_eq_true_eq] at hc
        have := UInt32.le_iff_toNat_le.mp hc.2
        change c.toNat ≤ 57 at this
        omega
      have hrest := ih ht (sofar * 10 + (c.toNat - 48))
      rw [List.foldl_cons, List.length_cons, Nat.pow_succ']
      refine hrest.trans_le ?_
      rw [← Nat.mul_assoc]
      exact Nat.mul_le_mul_right _ (by omega)
  simpa [ofDigits] using hfold 0

theorem ofDigits_le {t : Text} (h : ∀ c ∈ t, c.isDigit = true) (hlength : t.length ≤ mostDigits) :
    ofDigits t ≤ 2 ^ 30 := by
  have hpow : 10 ^ t.length ≤ 10 ^ mostDigits := Nat.pow_le_pow_right (by decide) hlength
  exact ((ofDigits_lt h).trans_le hpow).le.trans (by decide)

/-- A run of digits is no longer than there are digits. -/
theorem length_takeWhile_isDigit (t : Text) :
    (t.takeWhile Char.isDigit).length ≤ t.countP Char.isDigit := by
  have hall : (t.takeWhile Char.isDigit).countP Char.isDigit =
      (t.takeWhile Char.isDigit).length :=
    List.countP_eq_length.mpr fun _ hc => List.mem_takeWhile_imp hc
  rw [← hall]
  exact (List.takeWhile_sublist _).countP_le

theorem span_digitsOr {digits : Text} (h : ∀ c ∈ digits, c.isDigit = true)
    (hlength : digits.length ≤ mostDigits) : Span 30 (digitsOr (1.0 : Float) digits) := by
  unfold digitsOr
  split
  · exact span_one.mono (by decide)
  · exact span_ofNat (ofDigits_le h hlength) (by decide)

/-- The divisors of a length are runs of its digits. -/
theorem mem_divisors? {t : Text} {ds : List Text} (h : divisors? t = some ds) :
    ∀ d ∈ ds, (∀ c ∈ d, c.isDigit = true) ∧ d.length ≤ t.countP Char.isDigit := by
  induction t using divisors?.induct generalizing ds with
  | case1 =>
    rw [divisors?] at h
    cases h
    exact fun _ hd => absurd hd List.not_mem_nil
  | case2 rest ih =>
    rw [divisors?] at h
    obtain ⟨more,hmore,rfl⟩ := Option.map_eq_some_iff.mp h
    have hslash : ('/' :: rest).countP Char.isDigit = rest.countP Char.isDigit :=
      List.countP_cons_of_neg (by decide)
    rw [hslash]
    intro d hd
    rcases List.mem_cons.mp hd with rfl | hd
    · exact ⟨fun _ hc => List.mem_takeWhile_imp hc,length_takeWhile_isDigit rest⟩
    · obtain ⟨hdigits,hlength⟩ := ih hmore d hd
      exact ⟨hdigits,hlength.trans (List.dropWhile_sublist _).countP_le⟩
  | case3 t hnil hslash =>
    rw [divisors?] at h
    · cases h
    · exact hnil
    · exact hslash

/-- Dividing by whole numbers and by two makes no length longer. -/
theorem span_divideBy? {k : Nat} (hk : k ≤ 970) {ds : List Text} {x length : Float}
    (hx : Span k x) (hds : ∀ d ∈ ds, (∀ c ∈ d, c.isDigit = true) ∧ d.length ≤ mostDigits)
    (h : divideBy? x ds = some length) : Span k length := by
  induction ds generalizing x with
  | nil =>
    cases h
    exact hx
  | cons d rest ih =>
    obtain ⟨⟨hdigits,hlength⟩,hrest⟩ := List.forall_mem_cons.mp hds
    rw [divideBy?] at h
    split at h
    · cases h
    · next hzero =>
      refine ih ?_ hrest h
      unfold digitsOr
      split
      · exact hx.div span_two.nonneg span_two.within.finite (by rw [size_two]; norm_num) hk
      · next hempty =>
        have hle := ofDigits_le hdigits hlength
        obtain ⟨hfinite,hsize⟩ := size_ofNat (n := ofDigits d) (by omega)
        refine hx.div (nonneg_ofNat _) hfinite ?_ hk
        rw [hsize]
        have hpos : ofDigits d ≠ 0 := fun h0 => hzero (by simp [hempty, h0])
        exact_mod_cast Nat.one_le_iff_ne_zero.mpr hpos

theorem span_readLength? {t : Text} {length : Float} (h : readLength? t = some length)
    (hdigits : t.countP Char.isDigit ≤ mostDigits) : Span 30 length := by
  simp only [readLength?, Option.bind_eq_bind, Option.bind_eq_some_iff] at h
  obtain ⟨ds,hds,value,hvalue,hlength⟩ := h
  have hfirst : Span 30 (digitsOr (1.0 : Float) (t.takeWhile Char.isDigit)) :=
    span_digitsOr (fun _ hc => List.mem_takeWhile_imp hc)
      ((length_takeWhile_isDigit t).trans hdigits)
  have hdivisors : ∀ d ∈ ds, (∀ c ∈ d, c.isDigit = true) ∧ d.length ≤ mostDigits := by
    intro d hd
    obtain ⟨hall,hle⟩ := mem_divisors? hds d hd
    exact ⟨hall,(hle.trans (List.dropWhile_sublist _).countP_le).trans hdigits⟩
  have hspan := span_divideBy? (by decide) hfirst hdivisors hvalue
  split at hlength
  · exact Option.some.inj hlength ▸ hspan
  · cases hlength

theorem Accidental.take_sublist (t : Text) : (Accidental.take t).2.Sublist t := by
  unfold Accidental.take
  split
  · exact (List.sublist_cons_self _ _).trans (List.sublist_cons_self _ _)
  · exact (List.sublist_cons_self _ _).trans (List.sublist_cons_self _ _)
  · exact List.sublist_cons_self _ _
  · exact List.sublist_cons_self _ _
  · exact List.sublist_cons_self _ _
  · exact List.Sublist.refl _

theorem WrittenNote.span_read? {t : Text} {w : WrittenNote Float}
    (h : WrittenNote.read? t = some w) (hdigits : t.countP Char.isDigit ≤ mostDigits) :
    Span 30 w.length := by
  have htake := Accidental.take_sublist t
  unfold WrittenNote.read? at h
  split at h
  · cases h
  · next accidental c rest heq =>
    simp only [Option.bind_eq_bind, Option.bind_eq_some_iff] at h
    obtain ⟨letter,-,length,hlength,hw⟩ := h
    rw [← Option.some.inj hw]
    rw [heq] at htake
    have hsub : (rest.dropWhile isOctaveMark).Sublist t :=
      (List.dropWhile_sublist _).trans ((List.sublist_cons_self c rest).trans htake)
    exact span_readLength? hlength (hsub.countP_le.trans hdigits)

/-! ## Settings in force -/

/-- A unit length of no more than two to the power 100 whole notes, and numbers of a meter. -/
structure MusicContext.Moderate (c : MusicContext Float) : Prop where
  unitLength : Span 100 c.unitLength
  beats : c.meter.beats ≤ 255
  beatType : 0 < c.meter.beatType ∧ c.meter.beatType ≤ 255

theorem MusicContext.Moderate.span_beats {c : MusicContext Float} (h : c.Moderate)
    {length : Float} (hlength : Span 30 length) : Span 132 (c.beats length) :=
  (span_four.mul h.unitLength (by decide)).mul hlength (by decide)

theorem span_barCount? {t : Text} {bars : Float} (h : MusicState.barCount? t = some bars)
    (hdigits : t.countP Char.isDigit ≤ mostDigits) : Span 30 bars := by
  unfold MusicState.barCount? at h
  split at h
  · exact Option.some.inj h ▸ span_one.mono (by decide)
  · unfold readDigits? at h
    split at h
    · next hall =>
      rw [Option.map_some, Option.some.injEq] at h
      rw [Bool.and_eq_true, List.all_eq_true] at hall
      rw [List.countP_eq_length.mpr hall.2] at hdigits
      exact h ▸ span_ofNat (ofDigits_le hall.2 hdigits) (by decide)
    · cases h

theorem MusicContext.Moderate.span_bars {c : MusicContext Float} (h : c.Moderate)
    {bars : Float} (hbars : Span 30 bars) : Span 40 (bars * c.meter.barBeats) := by
  have hone : (1 : ℚ) ≤ c.meter.beatType := by exact_mod_cast h.beatType.1
  have hbeatType := h.beatType.2
  have hbeats := h.beats
  obtain ⟨hfinite,hsize⟩ := size_ofNat (n := c.meter.beatType) (by omega)
  have hvalue : Span 8 (c.meter.value : Float) :=
    (span_ofNat (by omega) (by decide)).div (nonneg_ofNat _) hfinite (by rwa [hsize]) (by decide)
  exact hbars.mul (hvalue.mul span_four (by decide)) (by decide)

/-! ## Tuplets -/

namespace Tuplet

/-- How many times a group doubles its notes at most. -/
def doublings (t : Tuplet) : Nat :=
  if t.inTimeOf ≤ t.notes then 0 else (t.inTimeOf / t.notes).log2 + 1

/-- A group as it is read. -/
structure Sound (t : Tuplet) : Prop where
  pos : 0 < t.notes
  notes : t.notes ≤ mostWord
  inTimeOf : t.inTimeOf ≤ mostWord

theorem inTimeOf_le {t : Tuplet} (h : 0 < t.notes) : t.inTimeOf ≤ 2 ^ t.doublings * t.notes := by
  unfold doublings
  split
  · next hle => rwa [Nat.pow_zero, Nat.one_mul]
  · have hquotient : t.inTimeOf / t.notes < 2 ^ ((t.inTimeOf / t.notes).log2 + 1) :=
      Nat.lt_log2_self
    exact ((Nat.div_lt_iff_lt_mul h).mp hquotient).le

theorem Sound.doublings_le {t : Tuplet} (h : t.Sound) : t.doublings ≤ 32 := by
  have htime := h.inTimeOf
  unfold doublings
  split
  · exact Nat.zero_le _
  · next hlt =>
    have hle : t.inTimeOf / t.notes < 2 ^ 32 :=
      (Nat.div_le_self _ _).trans_lt (htime.trans_lt (by decide))
    have hne : t.inTimeOf / t.notes ≠ 0 := (Nat.div_pos (by omega) h.pos).ne'
    exact (Nat.log2_lt hne).mpr hle

theorem Sound.span_scale {t : Tuplet} (h : t.Sound) : Span t.doublings (t.scale : Float) := by
  have hnotes : t.notes < 2 ^ 53 := h.notes.trans_lt (by decide)
  have htime : t.inTimeOf < 2 ^ 53 := h.inTimeOf.trans_lt (by decide)
  obtain ⟨hfinite,hsize⟩ := size_ofNat hnotes
  obtain ⟨hfinite',hsize'⟩ := size_ofNat htime
  have hpos := h.pos
  refine span_div (nonneg_ofNat _) (nonneg_ofNat _) hfinite' hfinite ?_ ?_
    (h.doublings_le.trans (by decide))
  · rw [hsize]
    exact_mod_cast hpos.ne'
  · rw [hsize, hsize']
    exact_mod_cast inTimeOf_le hpos

/-- How many times a stack of groups doubles its notes at most. -/
def allDoublings (ts : List Tuplet) : Nat := (ts.map doublings).sum

theorem span_scaleAll {ts : List Tuplet} (hts : ∀ t ∈ ts, t.Sound)
    (hmost : allDoublings ts ≤ 970) : Span (allDoublings ts) (scaleAll ts : Float) := by
  induction ts with
  | nil => exact span_one
  | cons t outer ih =>
    obtain ⟨ht,houter⟩ := List.forall_mem_cons.mp hts
    have hsum : allDoublings (t :: outer) = allDoublings outer + t.doublings := Nat.add_comm _ _
    rw [hsum] at hmost ⊢
    exact (ih houter (by omega)).mul ht.span_scale hmost

theorem countNote_sound {ts : List Tuplet} (hts : ∀ t ∈ ts, t.Sound) :
    (∀ t ∈ countNote ts, t.Sound) ∧ allDoublings (countNote ts) ≤ allDoublings ts := by
  induction ts with
  | nil => exact ⟨hts,Nat.le_refl _⟩
  | cons t outer ih =>
    obtain ⟨ht,houter⟩ := List.forall_mem_cons.mp hts
    obtain ⟨hsound,hle⟩ := ih houter
    unfold countNote
    split
    · exact ⟨hsound,hle.trans (Nat.le_add_left _ _)⟩
    · exact ⟨List.forall_mem_cons.mpr ⟨⟨ht.pos,ht.notes,ht.inTimeOf⟩,houter⟩,Nat.le_refl _⟩

theorem doublings_mono {t u : Tuplet} (hnotes : t.notes = u.notes)
    (htime : t.inTimeOf ≤ u.inTimeOf) : t.doublings ≤ u.doublings := by
  unfold doublings
  rw [hnotes]
  split
  · exact Nat.zero_le _
  · next hlt =>
    rw [if_neg (by omega)]
    rcases Nat.eq_zero_or_pos (t.inTimeOf / u.notes) with hzero | hpos
    · rw [hzero, Nat.log2_zero]
      omega
    · have hle : t.inTimeOf / u.notes ≤ u.inTimeOf / u.notes := Nat.div_le_div_right htime
      have hlog := (Nat.le_log2 (by omega : u.inTimeOf / u.notes ≠ 0)).mpr
        ((Nat.log2_self_le hpos.ne').trans hle)
      omega

theorem readOptional?_le {absent n : Nat} {t : Option Text} (habsent : absent ≤ mostWord)
    (h : readOptional? absent t = some n) : n ≤ mostWord := by
  unfold readOptional? at h
  split at h
  · exact Option.some.inj h ▸ habsent
  · exact Option.some.inj h ▸ habsent
  · exact readNat?_le h

theorem defaultInTimeOf_le (notes : Nat) (meter : Meter) :
    defaultInTimeOf notes meter ≤ defaultInTimeOf notes ⟨6, 8, false⟩ ∧
      defaultInTimeOf notes ⟨6, 8, false⟩ ≤ 3 := by
  unfold defaultInTimeOf
  split
  · decide
  · decide
  · decide
  · decide
  · decide
  · split <;> decide

/-- How many times a group doubles its notes at most, whatever the meter. -/
def writtenDoublings (text : Text) : Nat := ((read? text ⟨6, 8, false⟩).map doublings).getD 0

theorem read?_spec {text : Text} {meter : Meter} {t : Tuplet} (h : read? text meter = some t) :
    t.Sound ∧ t.doublings ≤ writtenDoublings text := by
  simp only [read?, Option.bind_eq_bind, Option.bind_eq_some_iff] at h
  obtain ⟨notes,hnotes,h⟩ := h
  split at h
  · cases h
  · next hzero =>
    simp only [Option.bind_eq_some_iff] at h
    obtain ⟨time,htime,remaining,hremaining,h⟩ := h
    obtain rfl := Option.some.inj h
    obtain ⟨hdefault,hmost⟩ := defaultInTimeOf_le notes meter
    have hword : 3 ≤ mostWord := by decide
    have hle := readOptional?_le (by decide) htime
    constructor
    · refine ⟨Nat.pos_of_ne_zero hzero,readNat?_le hnotes,?_⟩
      dsimp only
      split
      · exact (hdefault.trans hmost).trans hword
      · exact hle
    · simp only [writtenDoublings, read?, Option.bind_eq_bind, hnotes, Option.bind_some,
        if_neg hzero, htime, hremaining, Option.map_some, Option.getD_some]
      refine doublings_mono rfl ?_
      dsimp only
      split
      · exact hdefault
      · exact Nat.le_refl _

end Tuplet

/-! ## Broken rhythm -/

namespace MusicState

theorem span_halves (n : Nat) : Span 0 (halves n : Float) := by
  induction n with
  | zero => exact span_one
  | succ n ih => exact span_half.mul ih (by decide)

theorem span_brokenFactors (text : Text) :
    Span 1 (brokenFactors text : Float × Float).1 ∧
      Span 1 (brokenFactors text : Float × Float).2 := by
  have hshort := span_halves text.length
  have hlong : Span 1 ((2.0 : Float) - halves text.length) := by
    refine span_two.sub hshort.nonneg hshort.within.finite ?_ (by decide)
    have hle := hshort.within.le
    rw [size_two]
    simp only [Nat.cast_one, pow_zero, mul_one] at hle
    exact hle.trans (by norm_num)
  unfold brokenFactors
  dsimp only
  split
  · exact ⟨hlong,hshort.mono (by decide)⟩
  · exact ⟨hshort.mono (by decide),hlong⟩

end MusicState
end AbcTune
