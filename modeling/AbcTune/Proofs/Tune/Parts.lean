import Mathlib.Data.List.Perm.Basic
import AbcTune.Proofs.Tune.Assembly
import AbcTune.Proofs.Tune.Labels
import AbcTune.Proofs.Voice.Clocks

/-! # Parts in sequence

The notes before the first part play once. A part of the sequence plays those of its notes that
start between its own start and that of the next part, as often as the sequence says.
-/
namespace AbcTune

section Notes

variable {β : Type} [Beats β]

/-- A note wherever it starts. -/
def Note.unplaced (n : Note β) : Note β := { n with start := 0.0 }

theorem map_unplaced_filter (part : Option Char) (notes : List (Note β)) :
    (notes.filter (·.part = part)).map Note.unplaced =
      (notes.map Note.unplaced).filter (·.part = part) := by
  rw [List.filter_map]
  rfl

end Notes

namespace Tune

section Layout

variable {β : Type} [Beats β] {notes : List (Note β)} {ranges parts : List (PartRange β)}
  {range : PartRange β} {sequence : List Char}

/-- Where the copies of a part go makes no difference to what they are copies of. -/
theorem map_unplaced_layOut (notes : List (Note β)) (parts : List (PartRange β)) (cursor : β) :
    (layOut notes parts cursor).map Note.unplaced =
      parts.flatMap fun r => (notes.filter r.holds).map Note.unplaced := by
  induction parts generalizing cursor with
  | nil => rfl
  | cons r rest ih =>
    rw [layOut, List.map_append, List.map_map, ih, List.flatMap_cons]
    rfl

theorem holds_iff {n : Note β} : range.holds n = true ↔
    n.part = some range.label ∧
      range.start - partSlack ≤ n.start ∧ n.start < range.stop - partSlack := by
  simp [PartRange.holds, and_assoc]

theorem part_of_holds {n : Note β} (h : range.holds n = true) : n.part = some range.label :=
  (holds_iff.mp h).1

omit [Beats β] in
theorem map_label_partRanges (stop : β) (sections : List (Section β)) :
    (partRanges stop sections).map PartRange.label = sections.map Section.label := by
  fun_induction partRanges stop sections with
  | case1 => rfl
  | case2 => rfl
  | case3 s next rest ih =>
    rw [List.map_cons, ih]
    rfl

omit [Beats β] in
/-- The parts of a sequence have its labels, and each is the first one of its label. -/
theorem find?_of_resolveParts (h : resolveParts ranges sequence = .ok parts) :
    parts.map PartRange.label = sequence ∧
      ∀ r ∈ parts, ranges.find? (·.label = r.label) = some r := by
  induction sequence generalizing parts with
  | nil =>
    cases h
    exact ⟨rfl,List.forall_mem_nil _⟩
  | cons label rest ih =>
    unfold resolveParts at h
    split at h
    · cases h
    · next r hr =>
      obtain ⟨more,hmore,rfl⟩ := exists_of_map_ok h
      obtain ⟨hlabels,hfound⟩ := ih hmore
      have hlabel : r.label = label := by simpa using List.find?_some hr
      subst hlabel
      exact ⟨congrArg _ hlabels,List.forall_mem_cons.mpr ⟨hr,hfound⟩⟩

omit [Beats β] in
/-- A part stands in the resolved sequence as often as its label in the written one. -/
theorem filter_resolveParts (h : (ranges.map PartRange.label).Nodup) (hrange : range ∈ ranges)
    (hparts : resolveParts ranges sequence = .ok parts) :
    parts.filter (·.label = range.label) =
      List.replicate (sequence.count range.label) range := by
  obtain ⟨rfl,hfound⟩ := find?_of_resolveParts hparts
  rw [List.eq_replicate_iff]
  constructor
  · rw [← List.countP_eq_length_filter, List.count, List.countP_map]
    exact List.countP_congr fun r _ => by simp
  · intro r hr
    obtain ⟨hr,hlabel⟩ := List.mem_filter.mp hr
    have hsame := hfound r hr
    rw [of_decide_eq_true hlabel, find?_of_nodup h hrange] at hsame
    exact (Option.some.inj hsame).symm

theorem filter_none_layOut (notes : List (Note β)) (parts : List (PartRange β)) (cursor : β) :
    (layOut notes parts cursor).filter (·.part.isNone) = [] := by
  induction parts generalizing cursor with
  | nil => rfl
  | cons r rest ih =>
    rw [layOut, List.filter_append, ih, List.append_nil, List.filter_eq_nil_iff]
    intro n hn
    obtain ⟨m,hm,rfl⟩ := List.mem_map.mp hn
    simp [part_of_holds (List.mem_filter.mp hm).2]

theorem filter_none_arrange (start : β) (parts : List (PartRange β)) (v : Voice β) :
    (arrange start parts v).notes.filter (·.part.isNone) = v.notes.filter (·.part.isNone) := by
  rw [arrange, List.filter_append, filter_none_layOut, List.append_nil, List.filter_filter]
  simp

/-- The notes of one part among the copies that are laid out. -/
theorem filter_copies (label : Char) (notes : List (Note β)) (parts : List (PartRange β)) :
    (parts.flatMap fun r => (notes.filter r.holds).map Note.unplaced).filter
        (·.part = some label) =
      (parts.filter (·.label = label)).flatMap fun r =>
        (notes.filter r.holds).map Note.unplaced := by
  induction parts with
  | nil => rfl
  | cons r rest ih =>
    rw [List.flatMap_cons, List.filter_append, ih, ← map_unplaced_filter, List.filter_filter]
    by_cases hlabel : r.label = label
    · rw [List.filter_cons_of_pos (by simpa using hlabel), List.flatMap_cons]
      congr 2
      apply List.filter_congr
      intro n _
      cases hholds : r.holds n with
      | false => simp
      | true => simp [part_of_holds hholds, hlabel]
    · rw [List.filter_cons_of_neg (by simpa using hlabel)]
      have hnone : notes.filter (fun n => decide (n.part = some label) && r.holds n) = [] := by
        rw [List.filter_eq_nil_iff]
        intro n _ hn
        simp only [Bool.and_eq_true, decide_eq_true_eq] at hn
        rw [part_of_holds hn.2] at hn
        exact hlabel (Option.some.inj hn.1)
      rw [hnone]
      rfl

/-- A voice plays its notes within a part as often as the part is asked for. -/
theorem filter_part_arrange (h : (ranges.map PartRange.label).Nodup) (hrange : range ∈ ranges)
    (hparts : resolveParts ranges sequence = .ok parts) (start : β) (v : Voice β) :
    ((arrange start parts v).notes.filter (·.part = some range.label)).map Note.unplaced =
      (List.replicate (sequence.count range.label) range).flatMap fun r =>
        (v.notes.filter r.holds).map Note.unplaced := by
  have hnone : (v.notes.filter (·.part.isNone)).filter (·.part = some range.label) = [] := by
    rw [List.filter_filter, List.filter_eq_nil_iff]
    intro n _
    cases n.part <;> simp
  rw [arrange, List.filter_append, hnone, List.nil_append, map_unplaced_filter,
    map_unplaced_layOut, filter_copies, filter_resolveParts h hrange hparts]

omit [Beats β] in
/-- Copies for each of some voices are, in another order, copies for each of some parts. -/
theorem flatMap_flatMap_perm {γ : Type} (voices : List (Voice β)) (parts : List (PartRange β))
    (copies : Voice β → PartRange β → List γ) :
    List.Perm (voices.flatMap fun v => parts.flatMap (copies v))
      (parts.flatMap fun r => voices.flatMap fun v => copies v r) := by
  induction voices with
  | nil => simp
  | cons v rest ih =>
    simp only [List.flatMap_cons]
    exact (ih.append_left _).trans (List.flatMap_append_perm parts _ _)

theorem filter_none_voices (start : β) (parts : List (PartRange β)) (voices : List (Voice β)) :
    ((voices.map (arrange start parts)).flatMap (·.notes)).filter (·.part.isNone) =
      (voices.flatMap (·.notes)).filter (·.part.isNone) := by
  rw [List.flatMap_map, List.filter_flatMap, List.filter_flatMap]
  simp only [filter_none_arrange]

theorem filter_part_voices (h : (ranges.map PartRange.label).Nodup) (hrange : range ∈ ranges)
    (hparts : resolveParts ranges sequence = .ok parts) (start : β) (voices : List (Voice β)) :
    List.Perm
      ((((voices.map (arrange start parts)).flatMap (·.notes)).filter
        (·.part = some range.label)).map Note.unplaced)
      (List.replicate (sequence.count range.label)
        (((voices.flatMap (·.notes)).filter range.holds).map Note.unplaced)).flatten := by
  have hcopies : (List.replicate (sequence.count range.label)
      (((voices.flatMap (·.notes)).filter range.holds).map Note.unplaced)).flatten =
        (List.replicate (sequence.count range.label) range).flatMap fun r =>
          voices.flatMap fun v => (v.notes.filter r.holds).map Note.unplaced := by
    rw [List.filter_flatMap, List.map_flatMap, List.flatMap_replicate]
  rw [hcopies, List.flatMap_map, List.filter_flatMap, List.map_flatMap]
  simp only [filter_part_arrange h hrange hparts]
  exact flatMap_flatMap_perm voices _ _

omit [Beats β] in
/-- Of two lists of which one is a part of the other, copies agree if there are none or if both are
the same. -/
theorem copies_perm_iff {γ : Type} (count : Nat) (f : Note β → γ) {p q : Note β → Bool}
    (hpq : ∀ n, p n = true → q n = true) (notes : List (Note β)) :
    List.Perm (List.replicate count ((notes.filter p).map f)).flatten
        ((List.replicate count (notes.filter q)).flatten.map f) ↔
      count = 0 ∨ ∀ n ∈ notes, q n = true → p n = true := by
  have hfilter : notes.filter p = (notes.filter q).filter p := by
    rw [List.filter_filter]
    apply List.filter_congr
    intro n _
    cases hp : p n with
    | false => rfl
    | true => simp [hpq n hp]
  rw [List.map_flatten, List.map_replicate]
  constructor
  · intro hperm
    have hlength := hperm.length_eq
    simp only [List.length_flatten, List.map_replicate, List.sum_replicate, List.length_map,
      smul_eq_mul] at hlength
    rcases Nat.eq_zero_or_pos count with hzero | hpos
    · exact .inl hzero
    · right
      have hall := Nat.eq_of_mul_eq_mul_left hpos hlength
      rw [hfilter, List.length_filter_eq_length_iff] at hall
      intro n hn hq
      exact hall n (List.mem_filter.mpr ⟨hn,hq⟩)
  · rintro (rfl | hall)
    · exact .refl _
    · have hsame : notes.filter p = notes.filter q := by
        rw [hfilter, List.filter_eq_self]
        intro n hn
        exact hall n (List.mem_filter.mp hn).1 (List.mem_filter.mp hn).2
      rw [hsame]

end Layout

section Assembly

variable {t : Tune Float}

theorem writtenEnd_silent {v : Voice Float} (hnotes : v.notes = []) (htime : v.savedTime = 0.0) :
    writtenEnd [v] = writtenEnd [] := by
  have hlater : Beats.later (0.0 : Float) 0.0 = 0.0 := by decide +kernel
  simp only [writtenEnd, List.flatMap_cons, List.flatMap_nil, hnotes, htime, List.map_nil,
    List.append_nil, List.nil_append, List.foldl_cons, List.foldl_nil]
  exact hlater

/-- A tune without voices gets one that is silent and takes no time. -/
theorem withImplicitVoice_spec (t : Tune Float) (id : String) :
    (t.withImplicitVoice id).voices.flatMap (·.notes) = t.voices.flatMap (·.notes) ∧
      writtenEnd (t.withImplicitVoice id).voices = writtenEnd t.voices := by
  unfold withImplicitVoice
  split
  · next hempty =>
    rw [List.isEmpty_iff.mp hempty]
    exact ⟨rfl,writtenEnd_silent rfl rfl⟩
  · exact ⟨rfl,rfl⟩

/-- Parts change the notes of the voices, not the voices. -/
theorem Listed.arrange (h : t.Listed) (start : Float) (parts : List (PartRange Float))
    (length : Float) :
    Listed { t with voices := t.voices.map (arrange start parts), length } := by
  have hids : (t.voices.map (Tune.arrange start parts)).map (·.id) = t.voices.map (·.id) :=
    List.map_map
  exact ⟨h.order.trans hids.symm,hids.symm ▸ h.ids⟩

/-- Parts are laid out if each label of the sequence has one. -/
theorem exists_parts {sequence : List Char} {sections : List (Section Float)} {line : Nat}
    (hsequence : t.heading.partSequence = some sequence) (hne : sequence ≠ [])
    (h : (t.arrangeParts sections line).2 = none) :
    ∃ parts start length, resolveParts (partRanges t.length sections) sequence = .ok parts ∧
      (t.arrangeParts sections line).1 =
        { t with voices := t.voices.map (arrange start parts), length } := by
  unfold arrangeParts at h ⊢
  rw [hsequence] at h ⊢
  cases sequence with
  | nil => exact absurd rfl hne
  | cons label rest =>
    unfold expandParts at h ⊢
    dsimp only at h ⊢
    cases hparts : resolveParts (partRanges t.length sections) (label :: rest) with
    | error other =>
      rw [hparts] at h
      cases h
    | ok parts => exact ⟨parts,_,_,rfl,rfl⟩

theorem exists_parts_of_assemble {sequence : List Char} {sections : List (Section Float)}
    {id : String} {line : Nat} (hsequence : t.heading.partSequence = some sequence)
    (hne : sequence ≠ []) (hlisted : t.Listed) (h : (t.assemble id sections line).2 = none) :
    ∃ parts start, resolveParts (partRanges (writtenEnd t.voices) sections) sequence = .ok parts ∧
      List.Perm (t.assemble id sections line).1.events
        (((t.withImplicitVoice id).voices.map (arrange start parts)).flatMap (·.notes)) := by
  obtain ⟨-,hend⟩ := withImplicitVoice_spec t id
  let t' : Tune Float :=
    { t.withImplicitVoice id with length := writtenEnd (t.withImplicitVoice id).voices }
  have hheading : t'.heading.partSequence = some sequence := by
    rw [← hsequence, ← heading_withImplicitVoice t id]
  obtain ⟨parts,start,length,hparts,harranged⟩ := exists_parts hheading hne h
  refine ⟨parts,start,hend ▸ hparts,?_⟩
  have hlisted' : t'.Listed :=
    ⟨(hlisted.withImplicitVoice id).order,(hlisted.withImplicitVoice id).ids⟩
  have hordered : (t'.arrangeParts sections line).1.orderedVoices =
      t'.voices.map (arrange start parts) := by
    rw [harranged]
    exact (hlisted'.arrange start parts length).orderedVoices_eq
  change List.Perm (t'.arrangeParts sections line).1.mergeVoices _
  rw [mergeVoices, hordered]
  exact List.mergeSort_perm _ _

end Assembly
end Tune

/-! ## The reading of a source -/

/-- The notes of all voices as they were placed. -/
def TuneReading.written (r : TuneReading) : List (Note Float) := r.draft.voices.flatMap (·.notes)

namespace Tune

variable {source : Text} {r : TuneReading}

theorem part_of_written (hread : TuneReading.ofSource source = .ok r) :
    ∀ n ∈ r.written, ∀ label ∈ n.part, label ∈ r.sections.map Section.label := by
  intro n hn
  obtain ⟨v,hv,hn⟩ := List.mem_flatMap.mp hn
  exact (TuneReading.labeled_ofSource hread).notes.close v hv n hn

/-- Of a tune that is read without a problem and has a part sequence, every note is in a part that
was written or before all of them. The notes before the parts play once. Those of a part play as
often as the sequence says, wherever their copies start, exactly if none of them starts before its
part or where the next part starts; a part that is not in the sequence does not play. -/
theorem events_of_parts {sequence : List Char} (hread : TuneReading.ofSource source = .ok r)
    (hcomplete : r.finish.isComplete)
    (hsequence : r.settings.heading.partSequence = some sequence) (hne : sequence ≠ [])
    (hlabels : (r.sections.map Section.label).Nodup) :
    read source = .ok r.finish ∧
      (∀ n ∈ r.written, ∀ label ∈ n.part, label ∈ r.sections.map Section.label) ∧
      List.Perm (r.finish.events.filter (·.part.isNone)) (r.written.filter (·.part.isNone)) ∧
      ∀ range ∈ partRanges (writtenEnd r.draft.voices) r.sections,
        List.Perm ((r.finish.events.filter (·.part = some range.label)).map Note.unplaced)
            ((List.replicate (sequence.count range.label)
              (r.written.filter (·.part = some range.label))).flatten.map Note.unplaced) ↔
          range.label ∉ sequence ∨ ∀ n ∈ r.written, n.part = some range.label →
            range.start - partSlack ≤ n.start ∧ n.start < range.stop - partSlack := by
  have hread' : read source = .ok r.finish := by
    rw [read_eq, hread]
    rfl
  refine ⟨hread',part_of_written hread,?_⟩
  have hlabeled := TuneReading.labeled_ofSource hread
  have hlisted := TuneReading.listed_draft hlabeled.notes.order
  have hproblem : (r.draft.assemble implicitVoice r.sections
      (r.settings.sequenceLine.getD 0)).2 = none := by
    have hdiagnostics : r.diagnostics ++ (r.draft.assemble implicitVoice r.sections
        (r.settings.sequenceLine.getD 0)).2.toList = [] := List.isEmpty_iff.mp hcomplete
    exact Option.toList_eq_nil_iff.mp (List.append_eq_nil_iff.mp hdiagnostics).2
  obtain ⟨hvoices,-⟩ := withImplicitVoice_spec r.draft implicitVoice
  obtain ⟨parts,start,hparts,hevents⟩ :=
    exists_parts_of_assemble hsequence hne hlisted hproblem
  change List.Perm r.finish.events _ at hevents
  constructor
  · have hnone := hevents.filter (·.part.isNone)
    rw [filter_none_voices, hvoices] at hnone
    exact hnone
  · intro range hrange
    have hranges : ((partRanges (writtenEnd r.draft.voices) r.sections).map
        PartRange.label).Nodup := by
      rw [map_label_partRanges]
      exact hlabels
    have hpart := (hevents.filter (·.part = some range.label)).map Note.unplaced
    have hcopies := hpart.trans (filter_part_voices hranges hrange hparts start _)
    rw [hvoices] at hcopies
    have hiff := copies_perm_iff (sequence.count range.label) Note.unplaced
      (p := range.holds) (q := (·.part = some range.label))
      (fun n hn => decide_eq_true (part_of_holds hn)) r.written
    rw [List.count_eq_zero] at hiff
    constructor
    · intro hperm
      refine (hiff.mp (hcopies.symm.trans hperm)).imp_right fun hall n hn hpart => ?_
      exact (holds_iff.mp (hall n hn (decide_eq_true hpart))).2
    · intro hall
      refine hcopies.trans (hiff.mpr (hall.imp_right fun hall n hn hpart => ?_))
      have hpart := of_decide_eq_true hpart
      exact holds_iff.mpr ⟨hpart,hall n hn hpart⟩

/-! ## Voices in step -/

/-- Where a part starts, the voices that are there are brought to its start. One that comes later
begins at the first beat of the tune. -/
theorem clock_startPart (hactive : r.music.voices.HasActive) (label : Char) (id : String) :
    (r.startPart label).sections = r.sections ++ [⟨label,r.music.voices.latestTime⟩] ∧
      (r.startPart label).music.voices.clock id =
        if r.music.voices.contains id then r.music.voices.latestTime else 0.0 :=
  ⟨rfl,VoiceTable.clock_syncAll hactive id⟩

/-! ## Two sources -/

/-- Both voices are there before the first part. -/
def earlyVoices : Text :=
  "X:1\nP:BAB\nL:1/4\nK:C\nV:1\nV:2\nG\nP:A\nC D\nP:B\nE\nV:1\nF\n".toList

/-- The second voice comes with the second part. -/
def lateVoice : Text := "X:1\nP:AB\nL:1/4\nK:C\nP:A\nV:1\nC D\nP:B\nV:2\nE\n".toList

theorem events_of_parts_earlyVoices :
    ∃ (r : TuneReading) (range : PartRange Float), TuneReading.ofSource earlyVoices = .ok r ∧
      r.finish.isComplete ∧ r.settings.heading.partSequence = some ['B', 'A', 'B'] ∧
      r.sections.map Section.label = ['A', 'B'] ∧
      range ∈ partRanges (writtenEnd r.draft.voices) r.sections ∧ range.label = 'B' ∧
      (r.written.filter (·.part = some 'B')).map (·.pitch) = [65, 64] ∧
      List.Perm ((r.finish.events.filter (·.part = some 'B')).map Note.unplaced)
        ((List.replicate 2 (r.written.filter (·.part = some 'B'))).flatten.map Note.unplaced) := by
  have hevaluated : (TuneReading.ofSource earlyVoices).toOption.map
      (fun r => (r.finish.isComplete,r.settings.heading.partSequence,
        r.sections.map Section.label,(r.written.filter (·.part = some 'B')).map (·.pitch),
        (partRanges (writtenEnd r.draft.voices) r.sections).any fun range =>
          range.label = 'B' && r.written.all fun n => n.part = some 'B' →
            range.start - partSlack ≤ n.start ∧ n.start < range.stop - partSlack)) =
      some (true,some ['B', 'A', 'B'],['A', 'B'],[65, 64],true) := by
    decide +kernel
  obtain ⟨r,hread,hr⟩ := exists_of_toOption_map hevaluated
  simp only [Prod.mk.injEq, List.any_eq_true, Bool.and_eq_true, List.all_eq_true,
    decide_eq_true_eq] at hr
  obtain ⟨hcomplete,hsequence,hlabels,hpitches,range,hrange,hlabel,hall⟩ := hr
  obtain ⟨-,-,-,hparts⟩ := events_of_parts hread hcomplete hsequence (by decide)
    (hlabels ▸ by decide)
  have hperm := (hparts range hrange).mpr (.inr (hlabel.symm ▸ hall))
  rw [hlabel] at hperm
  exact ⟨r,range,hread,hcomplete,hsequence,hlabels,hrange,hlabel,hpitches,hperm⟩

/-- A voice that is new in a part starts at the first beat of the tune, and its notes before the
part do not play. -/
theorem events_of_parts_lateVoice :
    ∃ (r : TuneReading) (n : Note Float), TuneReading.ofSource lateVoice = .ok r ∧
      r.finish.isComplete ∧ r.settings.heading.partSequence = some ['A', 'B'] ∧
      r.sections.map Section.label = ['A', 'B'] ∧ n ∈ r.written ∧ n.part = some 'B' ∧
      ∀ m ∈ r.finish.events, m.part ≠ some 'B' := by
  have hevaluated : (TuneReading.ofSource lateVoice).toOption.map
      (fun r => (r.finish.isComplete,r.settings.heading.partSequence,
        r.sections.map Section.label,r.written.any (·.part = some 'B'),
        (r.finish.orderedVoices.flatMap (·.notes)).all (·.part ≠ some 'B'))) =
      some (true,some ['A', 'B'],['A', 'B'],true,true) := by
    decide +kernel
  obtain ⟨r,hread,hr⟩ := exists_of_toOption_map hevaluated
  simp only [Prod.mk.injEq, List.any_eq_true, List.all_eq_true, decide_eq_true_eq] at hr
  obtain ⟨hcomplete,hsequence,hlabels,⟨n,hn,hpart⟩,hnone⟩ := hr
  refine ⟨r,n,hread,hcomplete,hsequence,hlabels,hn,hpart,?_⟩
  intro m hm
  have hm : m ∈ r.finish.mergeVoices := hm
  exact hnone m (List.mem_mergeSort.mp hm)

end Tune
end AbcTune
