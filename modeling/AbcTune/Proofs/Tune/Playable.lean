import AbcTune.Proofs.Tune.Moderate
import AbcTune.Proofs.Tune.Parts

/-! # Playable tunes

A tune can be played if its tempo and its unit length are finite and positive and all of its notes
have finite positions. What makes a complete tune anything else are numbers that are too large, too
small or no numbers at all: in a field, or because lengths were multiplied again and again.
-/
namespace AbcTune

open Number

/-- A note that starts and ends at some time. -/
structure Note.Finite (n : Note Float) : Prop where
  start : n.start.isFinite = true
  duration : n.duration.isFinite = true

namespace Tune

/-- A tune whose tempo, unit length and notes can be turned into time. -/
structure Playable (t : Tune Float) : Prop where
  tempo : FinitePositive t.heading.tempo.bpm
  unitLength : FinitePositive t.heading.unitLength
  events : ∀ n ∈ t.events, n.Finite

/-! ## Laying out parts -/

variable {k m : Nat} {stop start : Float} {sections : List (Section Float)}
variable {ranges parts : List (PartRange Float)} {notes : List (Note Float)}

/-- A part between two bounded positions. -/
def PartRange.Bounded (k : Nat) (r : PartRange Float) : Prop :=
  Within 1 k r.start ∧ Within 1 k r.stop

theorem bounded_partRanges (hsections : ∀ s ∈ sections, Within 1 k s.start)
    (hstop : Within 1 k stop) : ∀ r ∈ partRanges stop sections, r.Bounded k := by
  induction sections with
  | nil => exact fun _ hr => absurd hr List.not_mem_nil
  | cons s rest ih =>
    obtain ⟨hs,hrest⟩ := List.forall_mem_cons.mp hsections
    cases rest with
    | nil => exact List.forall_mem_singleton.mpr ⟨hs,hstop⟩
    | cons next rest =>
      exact List.forall_mem_cons.mpr ⟨⟨hs,(List.forall_mem_cons.mp hrest).1⟩,ih hrest⟩

/-- Each part moves its notes by no more than the cursor has come, and the cursor by its length. -/
theorem finite_layOut (hk : k ≤ 970) (hnotes : ∀ n ∈ notes, Within 1 k n.start ∧
    Within 1 k n.duration) (hparts : ∀ r ∈ parts, PartRange.Bounded k r) {cursor : Float}
    (hcursor : Within m k cursor) (hroom : m + 2 * parts.length + 2 < 2 ^ 53) :
    ∀ n ∈ layOut notes parts cursor, n.Finite := by
  induction parts generalizing cursor m with
  | nil => exact fun _ hn => absurd hn List.not_mem_nil
  | cons r rest ih =>
    obtain ⟨hr,hrest⟩ := List.forall_mem_cons.mp hparts
    rw [List.length_cons] at hroom
    rw [layOut, List.forall_mem_append]
    constructor
    · intro n hn
      obtain ⟨note,hnote,rfl⟩ := List.mem_map.mp hn
      obtain ⟨hstart,hduration⟩ := hnotes note (List.mem_of_mem_filter hnote)
      have hshift := hcursor.sub hr.1 (by omega) hk
      exact ⟨(hstart.add hshift (by omega) hk).finite,hduration.finite⟩
    · have hlength : Within 2 k r.length := hr.2.sub hr.1 (by decide) hk
      exact ih hrest (hcursor.add hlength (by omega) hk) (by omega)

/-! ## Assembling -/

variable {n : Nat} {t : Tune Float} {v : Voice Float}

/-- A bound of all positions and lengths of a moderate tune. -/
def mostExponent : Nat := 914

theorem within_notes (h : v.Bounded n) (hn : n ≤ mostTokens) : ∀ note ∈ v.notes,
    Within 1 mostExponent note.start ∧ Within 1 mostExponent note.duration ∧
      Within 1 mostExponent note.stop := by
  have hmost : mostTokens = 2 ^ 22 := rfl
  intro note hnote
  obtain ⟨hstart,hduration⟩ := h.notes note hnote
  have hstart : Within 1 913 note.start :=
    (hstart.fold (j := 22) (by omega)).more le_rfl (by decide)
  have hduration : Within 1 913 note.duration := hduration.fold (j := 23) (by omega)
  exact ⟨hstart.more le_rfl (by decide),hduration.more le_rfl (by decide),
    (hstart.add hduration (by decide) (by decide)).fold (j := 1) (by decide)⟩

theorem within_clock {x : Float} (h : Clock n x) (hn : n ≤ mostTokens) :
    Within 1 mostExponent x := by
  have hmost : mostTokens = 2 ^ 22 := rfl
  exact (h.fold (j := 22) (by omega)).more le_rfl (by decide)

theorem within_writtenEnd {voices : List (Voice Float)} (h : ∀ v ∈ voices, v.Bounded n)
    (hn : n ≤ mostTokens) : Within 1 mostExponent (writtenEnd voices) := by
  refine within_foldl_later (within_zero .positive) fun time htime => ?_
  obtain ⟨v,hv,htime⟩ := List.mem_flatMap.mp htime
  rcases List.mem_append.mp htime with htime | htime
  · obtain ⟨note,hnote,rfl⟩ := List.mem_map.mp htime
    exact (within_notes (h v hv) hn note hnote).2.2
  · rw [List.mem_singleton.mp htime]
    exact within_clock (h v hv).savedTime hn

theorem finite_arrange (h : v.Bounded n) (hn : n ≤ mostTokens)
    (hstart : Within 1 mostExponent start) (hparts : ∀ r ∈ parts, r.Bounded mostExponent)
    (hlength : parts.length ≤ mostParts) : ∀ note ∈ (arrange start parts v).notes, note.Finite := by
  have hmost : mostParts = 2 ^ 20 := rfl
  have hnotes := within_notes h hn
  refine List.forall_mem_append.mpr ⟨fun note hnote => ?_,?_⟩
  · have hbounded := hnotes note (List.mem_of_mem_filter hnote)
    exact ⟨hbounded.1.finite,hbounded.2.1.finite⟩
  · exact finite_layOut (by decide) (fun note hnote => ⟨(hnotes note hnote).1,
      (hnotes note hnote).2.1⟩) hparts hstart (by omega)

/-- The notes of all voices stay finite where parts are laid out. -/
theorem finite_arrangeParts (hvoices : ∀ v ∈ t.voices, v.Bounded n) (hn : n ≤ mostTokens)
    (hlength : Within 1 mostExponent t.length) (hsections : ∀ s ∈ sections, Clock n s.start)
    (hparts : (t.heading.partSequence.getD []).length ≤ mostParts) (line : Nat) :
    ∀ v ∈ (t.arrangeParts sections line).1.voices, ∀ note ∈ v.notes, note.Finite := by
  have hwritten : ∀ v ∈ t.voices, ∀ note ∈ v.notes, note.Finite := fun v hv note hnote =>
    have hnotes := within_notes (hvoices v hv) hn note hnote
    ⟨hnotes.1.finite,hnotes.2.1.finite⟩
  unfold arrangeParts
  split
  · exact hwritten
  · exact hwritten
  · next sequence hsome hsequence =>
    rw [hsequence, Option.getD_some] at hparts
    split
    · next expanded hexpanded =>
      unfold expandParts at hexpanded
      obtain ⟨parts,hresolve,rfl⟩ := exists_of_map_ok hexpanded
      obtain ⟨hlabels,hfound⟩ := find?_of_resolveParts hresolve
      have hstarts : ∀ s ∈ sections, Within 1 mostExponent s.start :=
        fun s hs => within_clock (hsections s hs) hn
      have hranges := bounded_partRanges hstarts hlength
      intro w hw
      obtain ⟨v,hv,rfl⟩ := List.mem_map.mp hw
      refine finite_arrange (hvoices v hv) hn ?_
        (fun r hr => hranges r (List.mem_of_find?_eq_some (hfound r hr))) ?_
      · split
        · exact within_zero .positive
        · exact hstarts _ List.mem_cons_self
      · rwa [← hlabels, List.length_map] at hparts
    · exact hwritten

theorem finite_assemble (hvoices : ∀ v ∈ t.voices, v.Bounded n) (hn : n ≤ mostTokens)
    (hsections : ∀ s ∈ sections, Clock n s.start)
    (hparts : (t.heading.partSequence.getD []).length ≤ mostParts) (id : String) (line : Nat) :
    ∀ note ∈ (t.assemble id sections line).1.events, note.Finite := by
  have himplicit : ∀ v ∈ (t.withImplicitVoice id).voices, v.Bounded n := by
    unfold withImplicitVoice
    split
    · exact List.forall_mem_singleton.mpr (VoiceTable.bounded_new rfl rfl)
    · exact hvoices
  let written : Tune Float :=
    { t.withImplicitVoice id with length := writtenEnd (t.withImplicitVoice id).voices }
  have hheading : written.heading = t.heading := heading_withImplicitVoice t id
  have hnotes := finite_arrangeParts (t := written) himplicit hn (within_writtenEnd himplicit hn)
    hsections (hheading ▸ hparts) line
  intro note hnote
  have hmerged : note ∈ (written.arrangeParts sections line).1.mergeVoices := hnote
  rw [mergeVoices, sortNotes, List.mem_mergeSort] at hmerged
  obtain ⟨v,hv,hnote⟩ := List.mem_flatMap.mp hmerged
  obtain ⟨id,-,hid⟩ := List.mem_filterMap.mp hv
  exact hnotes v (List.mem_of_find?_eq_some hid) note hnote

/-- A complete tune is playable if its source is moderate: its tempo and its unit length are finite
and positive, and all of its notes have finite positions. -/
theorem read_playable {source : Text} {t : Tune Float} (hread : read source = .ok t)
    (hcomplete : t.isComplete = true) (hmoderate : isModerateSource source = true) :
    t.Playable := by
  rw [read_eq] at hread
  obtain ⟨r,hreading,rfl⟩ := exists_of_map_ok hread
  have hnone : r.finish.diagnostics = [] := List.isEmpty_iff.mp hcomplete
  obtain ⟨p,hfits,hroom⟩ := TuneReading.fits_ofSource hreading hmoderate
    (List.append_eq_nil_iff.mp hnone).1
  have hheading : r.finish.heading = r.settings.heading := heading_assemble r.draft _ _ _
  have hsettings := hfits.settings.heading
  refine ⟨?_,?_,?_⟩
  · rw [hheading]
    exact hsettings.tempo
  · rw [hheading]
    exact (magnitude_of_isModerate hsettings.unitLength).finitePositive
  · exact finite_assemble (t := r.draft) hfits.music.bounded.voices.close hroom hfits.sections
      hsettings.parts _ _

/-- A tune in parts, with triplets, broken rhythm, grace notes and a chord that is tied. -/
theorem read_playable_parts :
    ∃ t, read "L:1/8\nQ:1/4=90\nP:AB2\nK:C\nP:A\n(3CDE F>G {a}[CE]2-[CE]\nP:B\nz2 c4\n".toList =
      .ok t ∧ t.voices.map (·.notes.length) = [10] ∧ t.Playable := by
  have hevaluated :
      (read "L:1/8\nQ:1/4=90\nP:AB2\nK:C\nP:A\n(3CDE F>G {a}[CE]2-[CE]\nP:B\nz2 c4\n".toList
        ).toOption.map (fun t => (t.isComplete,t.voices.map (·.notes.length))) =
      some (true,[10]) := by
    decide +kernel
  obtain ⟨t,hread,ht⟩ := exists_of_toOption_map hevaluated
  rw [Prod.mk.injEq] at ht
  exact ⟨t,hread,ht.2,read_playable hread ht.1 (by decide +kernel)⟩

/-- An infinite tempo is accepted without a problem. -/
theorem not_playable_infinite :
    ∃ t, read "X:1\nL:1/4\nQ:1/4=inf\nK:C\nC\n".toList = .ok t ∧ t.isComplete = true ∧
      ¬t.Playable := by
  have hevaluated :
      (read "X:1\nL:1/4\nQ:1/4=inf\nK:C\nC\n".toList).toOption.map
        (fun t => (t.isComplete,t.heading.tempo.bpm.isFinite)) = some (true,false) := by
    decide +kernel
  obtain ⟨t,hread,ht⟩ := exists_of_toOption_map hevaluated
  rw [Prod.mk.injEq] at ht
  refine ⟨t,hread,ht.1,fun hplayable => ?_⟩
  rw [hplayable.tempo.1] at ht
  cases ht.2

end Tune
end AbcTune
