import Mathlib.Algebra.BigOperators.Group.List.Basic
import Mathlib.Algebra.Order.BigOperators.Group.List
import Mathlib.Data.List.FinRange
import Mathlib.Tactic.Linarith
import AbcTune.Proofs.Beat.Exact
import AbcTune.Proofs.Tune.Undefined

/-! # Parts end to end

A sequence lays its parts end to end: each one starts where the lengths of those before it add up
to, in every voice alike, and its notes are moved by as much as the part is. Parts that are asked
for as they were written stay where they are.
-/
namespace AbcTune.Tune

/-! ## The part of a label -/

section Ranges

variable {β : Type} {stop : β} {sections : List (Section β)} {ranges parts : List (PartRange β)}
  {range : PartRange β} {sequence : List Char} {label : Char}

/-- The first part that was written with its label. It ends where the next one of any label starts,
and the last one with the tune. -/
def PartRange.IsFirst (range : PartRange β) (sections : List (Section β)) (stop : β) : Prop :=
  ∃ before s after, sections = before ++ s :: after ∧ (∀ b ∈ before, b.label ≠ range.label) ∧
    range.label = s.label ∧ range.start = s.start ∧
    range.stop = (after.head?.map Section.start).getD stop

theorem partRanges_cons (stop : β) (s : Section β) (rest : List (Section β)) :
    partRanges stop (s :: rest) =
      ⟨s.label,s.start,(rest.head?.map Section.start).getD stop⟩ :: partRanges stop rest := by
  cases rest <;> rfl

theorem isFirst_cons (s : Section β) : range.IsFirst (s :: sections) stop ↔
    if s.label = range.label then
      ⟨s.label,s.start,(sections.head?.map Section.start).getD stop⟩ = range
    else range.IsFirst sections stop := by
  split
  · next hs =>
    constructor
    · rintro ⟨before,own,after,hsections,hbefore,hlabel,hstart,hstop⟩
      cases before with
      | nil =>
        cases hsections
        rw [← hstart, ← hstop, ← hlabel]
      | cons b rest =>
        cases hsections
        exact absurd hs (hbefore s List.mem_cons_self)
    · rintro rfl
      exact ⟨[],s,sections,rfl,List.forall_mem_nil _,rfl,rfl,rfl⟩
  · next hs =>
    constructor
    · rintro ⟨before,own,after,hsections,hbefore,hown⟩
      cases before with
      | nil =>
        cases hsections
        exact absurd hown.1.symm hs
      | cons b rest =>
        cases hsections
        exact ⟨rest,own,after,rfl,(List.forall_mem_cons.mp hbefore).2,hown⟩
    · rintro ⟨before,own,after,rfl,hbefore,hown⟩
      exact ⟨s :: before,own,after,rfl,List.forall_mem_cons.mpr ⟨hs,hbefore⟩,hown⟩

/-- The part that a label is looked up as is the first one that was written with it. -/
theorem find?_partRanges_iff :
    (partRanges stop sections).find? (·.label = range.label) = some range ↔
      range.IsFirst sections stop := by
  induction sections with
  | nil => simp [partRanges, PartRange.IsFirst]
  | cons s rest ih =>
    rw [isFirst_cons, partRanges_cons, List.find?_cons]
    by_cases hs : s.label = range.label
    · simp [hs]
    · simp [hs, ih]

/-- Where no label was written twice, the labels as they were written name all of the parts. -/
theorem resolveParts_labels (h : (ranges.map PartRange.label).Nodup)
    (hsublist : parts.Sublist ranges) :
    resolveParts ranges (parts.map PartRange.label) = .ok parts := by
  induction parts with
  | nil => rfl
  | cons r rest ih =>
    have hfound := find?_of_nodup h (hsublist.subset List.mem_cons_self)
    rw [List.map_cons, resolveParts, hfound, ih ((List.sublist_cons_self _ _).trans hsublist)]
    rfl

end Ranges

variable {notes : List (Note Rat)} {sections : List (Section Rat)}
  {parts ranges : List (PartRange Rat)} {range : PartRange Rat} {start stop : Rat}

/-- Parts in the order of their starts end no earlier than they start. -/
theorem PartRange.IsFirst.length_nonneg (h : range.IsFirst sections stop)
    (hsorted : sections.Pairwise (·.start ≤ ·.start)) (hstop : ∀ s ∈ sections, s.start ≤ stop) :
    0 ≤ range.length := by
  obtain ⟨before,s,after,rfl,-,-,hstart,hend⟩ := h
  rw [PartRange.length, hstart, hend, sub_nonneg]
  cases after with
  | nil => exact hstop s (by simp)
  | cons next rest =>
    have hafter := (List.pairwise_append.mp hsorted).2.1
    exact (List.pairwise_cons.mp hafter).1 next List.mem_cons_self

/-! ## The places of the parts -/

/-- Where the part with an index starts: after the lengths of all parts before it. -/
def onset (start : Rat) (parts : List (PartRange Rat)) (index : Nat) : Rat :=
  start + ((parts.take index).map PartRange.length).sum

/-- The notes of a part, moved from where it was written to its place in the sequence. -/
def copies (start : Rat) (parts : List (PartRange Rat)) (notes : List (Note Rat))
    (index : Fin parts.length) : List (Note Rat) :=
  (notes.filter parts[index].holds).map fun n =>
    { n with start := n.start + (onset start parts index - parts[index].start) }

theorem onset_cons (start : Rat) (r : PartRange Rat) (rest : List (PartRange Rat)) (index : Nat) :
    onset start (r :: rest) (index + 1) = onset (start + r.length) rest index := by
  simp [onset, add_assoc]

theorem onset_succ (start : Rat) (index : Fin parts.length) :
    onset start parts (index + 1) = onset start parts index + parts[index].length := by
  rw [onset, onset, List.map_take, List.map_take, List.sum_take_succ _ _ (by simp), add_assoc]
  simp

theorem onset_mono (h : ∀ r ∈ parts, 0 ≤ r.length) {i j : Nat} (hij : i ≤ j) :
    onset start parts i ≤ onset start parts j := by
  have hsublist : ((parts.take i).map PartRange.length).Sublist
      ((parts.take j).map PartRange.length) := ((List.take_prefix_take_left hij).sublist).map _
  have hle := hsublist.sum_le_sum fun x hx => by
    obtain ⟨r,hr,rfl⟩ := List.mem_map.mp hx
    exact h r (List.mem_of_mem_take hr)
  unfold onset
  linarith

theorem layOut_eq (notes : List (Note Rat)) (parts : List (PartRange Rat)) (start : Rat) :
    layOut notes parts start = (List.finRange parts.length).flatMap (copies start parts notes) := by
  induction parts generalizing start with
  | nil => rfl
  | cons r rest ih =>
    have hfirst : onset start (r :: rest) 0 = start := by simp [onset]
    have hrest : ∀ index : Fin rest.length, copies start (r :: rest) notes index.succ =
        copies (start + r.length) rest notes index := by
      intro index
      simp only [copies, Fin.val_succ, onset_cons]
      rfl
    change _ = (List.finRange (rest.length + 1)).flatMap (copies start (r :: rest) notes)
    rw [List.finRange_succ, List.flatMap_cons, List.flatMap_map, layOut, ih]
    simp only [hrest]
    simp only [copies, Fin.coe_ofNat_eq_mod, Nat.zero_mod, hfirst]
    rfl

/-- The copies of a part start where the part has been laid. -/
theorem start_of_copies {index : Fin parts.length} {n : Note Rat}
    (h : n ∈ copies start parts notes index) :
    onset start parts index - partSlack ≤ n.start ∧
      n.start < onset start parts index + parts[index].length - partSlack := by
  obtain ⟨note,hnote,rfl⟩ := List.mem_map.mp h
  obtain ⟨-,hfrom,huntil⟩ := holds_iff.mp (List.mem_filter.mp hnote).2
  dsimp only
  rw [PartRange.length]
  constructor <;> linarith

/-- The copies of an earlier part start before those of a later one, also those of other voices. -/
theorem start_lt_of_copies (hlength : ∀ r ∈ parts, 0 ≤ r.length) {i j : Fin parts.length}
    (hij : i < j) {others : List (Note Rat)} {n m : Note Rat}
    (hn : n ∈ copies start parts notes i) (hm : m ∈ copies start parts others j) :
    n.start < m.start := by
  have hbetween : onset start parts i + parts[i].length ≤ onset start parts j := by
    rw [← onset_succ]
    exact onset_mono hlength hij
  have huntil := (start_of_copies hn).2
  have hfrom := (start_of_copies hm).1
  linarith

/-! ## Parts as they were written -/

/-- Parts that follow each other as they were written end with the tune. -/
theorem sum_length_partRanges (stop : Rat) (first : Section Rat) (more : List (Section Rat)) :
    first.start + ((partRanges stop (first :: more)).map PartRange.length).sum = stop := by
  induction more generalizing first with
  | nil => simp [partRanges, PartRange.length]
  | cons next rest ih =>
    have hrest := ih next
    rw [partRanges, List.map_cons, List.sum_cons, PartRange.length]
    linarith

/-- Each part is laid where it was written. -/
theorem layOut_partRanges (stop : Rat) (first : Section Rat) (more : List (Section Rat))
    (notes : List (Note Rat)) :
    layOut notes (partRanges stop (first :: more)) first.start =
      (partRanges stop (first :: more)).flatMap fun r => notes.filter r.holds := by
  induction more generalizing first with
  | nil => simp [partRanges, layOut]
  | cons next rest ih =>
    have hcursor : first.start + (next.start - first.start) = next.start := by ring
    rw [partRanges, layOut, List.flatMap_cons, PartRange.length, hcursor, ih]
    simp

/-- A note is in one part at most, so those of all parts are some of the notes in another order. -/
theorem flatMap_holds_perm (h : (ranges.map PartRange.label).Nodup) (notes : List (Note Rat)) :
    List.Perm (ranges.flatMap fun r => notes.filter r.holds)
      (notes.filter fun n => ranges.any (·.holds n)) := by
  induction ranges with
  | nil => simp
  | cons r rest ih =>
    obtain ⟨hr,hrest⟩ := List.nodup_cons.mp h
    have hother : ∀ n, r.holds n = true → rest.any (·.holds n) = false := by
      intro n hn
      rw [List.any_eq_false]
      intro other hother hholds
      have hlabel := (part_of_holds hn).symm.trans (part_of_holds hholds)
      exact hr (Option.some.inj hlabel ▸ List.mem_map_of_mem hother)
    -- the notes of all parts are divided into those of the first part and those of the rest
    have hsplit := List.filter_append_perm r.holds (notes.filter fun n =>
      (r :: rest).any (·.holds n))
    rw [List.filter_filter, List.filter_filter] at hsplit
    refine .trans ?_ hsplit
    rw [List.flatMap_cons]
    have hfirst : notes.filter r.holds =
        notes.filter (fun n => r.holds n && (r :: rest).any (·.holds n)) :=
      List.filter_congr fun n _ => by cases hn : r.holds n <;> simp [hn]
    have hlater : notes.filter (fun n => rest.any (·.holds n)) =
        notes.filter (fun n => !r.holds n && (r :: rest).any (·.holds n)) :=
      List.filter_congr fun n _ => by
        cases hn : r.holds n with
        | false => simp [hn]
        | true => simp [hn, hother n hn]
    rw [← hfirst, ← hlater]
    exact (ih hrest).append_left _

/-- A voice has its notes again, in another order at most, if its parts are laid as they were
written and hold all of their notes. -/
theorem arrange_partRanges_perm (stop : Rat) (first : Section Rat) (more : List (Section Rat))
    (hlabels : ((first :: more).map Section.label).Nodup) (v : Voice Rat)
    (hheld : ∀ n ∈ v.notes, n.part ≠ none →
      ∃ r ∈ partRanges stop (first :: more), r.holds n = true) :
    List.Perm (arrange first.start (partRanges stop (first :: more)) v).notes v.notes := by
  have hnodup : ((partRanges stop (first :: more)).map PartRange.label).Nodup := by
    rw [map_label_partRanges]
    exact hlabels
  have hrest : v.notes.filter (fun n => (partRanges stop (first :: more)).any (·.holds n)) =
      v.notes.filter (fun n => !n.part.isNone) := by
    refine List.filter_congr fun n hn => ?_
    rw [Bool.eq_iff_iff, List.any_eq_true]
    constructor
    · rintro ⟨r,-,hholds⟩
      simp [part_of_holds hholds]
    · intro hpart
      exact hheld n hn fun hnone => by simp [hnone] at hpart
  rw [arrange, layOut_partRanges]
  have hparts := flatMap_holds_perm hnodup v.notes
  rw [hrest] at hparts
  exact (hparts.append_left _).trans (List.filter_append_perm _ _)

/-! ## Laying parts out -/

/-- A tune has the parts of a sequence laid end to end from a beat on: the notes of each voice that
are in no part, unchanged, and then copies of those of each part of the sequence. -/
structure EndToEnd (start : Rat) (parts : List (PartRange Rat)) (t u : Tune Rat) : Prop where
  tune : u = { t with voices := u.voices, length := u.length }
  voices : u.voices = t.voices.map fun v =>
    { v with notes := v.notes.filter (·.part = none) ++
        (List.finRange parts.length).flatMap (copies start parts v.notes) }
  placed : ∀ v ∈ t.voices, ∀ index, ∀ n ∈ copies start parts v.notes index,
    onset start parts index - partSlack ≤ n.start ∧
      n.start < onset start parts index + parts[index].length - partSlack
  inOrder : ∀ v ∈ t.voices, ∀ w ∈ t.voices, ∀ i j, i < j →
    ∀ n ∈ copies start parts v.notes i, ∀ m ∈ copies start parts w.notes j, n.start < m.start
  length : u.length = start + (parts.map PartRange.length).sum

/-- A sequence of labels that were written lays the first part of each label end to end, from where
the first part of all was written. If it asks once for each of some parts that hold all of their
notes, as they were written, then the tune keeps its length and every voice its notes, and their
starts with them. -/
theorem expandParts_endToEnd (t : Tune Rat) (first : Section Rat) (more : List (Section Rat))
    (sequence : List Char) (hsorted : (first :: more).Pairwise (·.start ≤ ·.start))
    (hstop : ∀ s ∈ first :: more, s.start ≤ t.length)
    (hdefined : ∀ label ∈ sequence, label ∈ (first :: more).map Section.label) :
    ∃ (parts : List (PartRange Rat)) (u : Tune Rat), parts.map PartRange.label = sequence ∧
      (∀ r ∈ parts, r.IsFirst (first :: more) t.length) ∧
      t.expandParts (first :: more) sequence = .ok u ∧ EndToEnd first.start parts t u ∧
      (sequence = (first :: more).map Section.label → sequence.Nodup →
        (∀ v ∈ t.voices, ∀ n ∈ v.notes, n.part ≠ none →
          ∃ r : PartRange Rat, r.IsFirst (first :: more) t.length ∧ r.holds n = true) →
        u.length = t.length ∧
          List.Forall₂ (fun v w => w.notes.Perm v.notes) t.voices u.voices) := by
  have hlabels := map_label_partRanges t.length (first :: more)
  rcases resolveParts_cases sequence hlabels with ⟨label,hlabel,-⟩ | ⟨-,parts,hparts⟩
  · have hundefined := List.find?_some hlabel
    exact absurd (hdefined label (List.mem_of_find?_eq_some hlabel)) (by simpa using hundefined)
  obtain ⟨hsequence,hfound⟩ := find?_of_resolveParts hparts
  have hfirst : ∀ r ∈ parts, r.IsFirst (first :: more) t.length :=
    fun r hr => find?_partRanges_iff.mp (hfound r hr)
  have hnonneg : ∀ r ∈ parts, 0 ≤ r.length :=
    fun r hr => (hfirst r hr).length_nonneg hsorted hstop
  let u : Tune Rat := { t with
    voices := t.voices.map (arrange first.start parts)
    length := first.start + Beats.sum (parts.map PartRange.length) }
  have hsum : u.length = first.start + (parts.map PartRange.length).sum :=
    congrArg _ (Beats.sum_eq_sum _)
  refine ⟨parts,u,hsequence,hfirst,?_,⟨rfl,?_,?_,?_,hsum⟩,?_⟩
  · rw [expandParts, hparts]
    rfl
  · refine List.map_congr_left fun v _ => ?_
    rw [arrange, layOut_eq]
    congr 2
    exact List.filter_congr fun n _ => by cases n.part <;> rfl
  · exact fun v _ index n hn => start_of_copies hn
  · exact fun v _ w _ i j hij n hn m hm => start_lt_of_copies hnonneg hij hn hm
  · intro hwritten hnodup hheld
    have hranges : parts = partRanges t.length (first :: more) := by
      have hall := resolveParts_labels (hlabels ▸ hwritten ▸ hnodup)
        (List.Sublist.refl (partRanges t.length (first :: more)))
      rw [hlabels, ← hwritten, hparts] at hall
      exact Except.ok.inj hall
    constructor
    · rw [hsum, hranges, sum_length_partRanges]
    · refine List.forall₂_map_right_iff.mpr (List.forall₂_same.mpr fun v hv => ?_)
      rw [hranges]
      refine arrange_partRanges_perm t.length first more (hwritten ▸ hnodup) v fun n hn hpart => ?_
      obtain ⟨r,hr,hholds⟩ := hheld v hv n hn hpart
      exact ⟨r,List.mem_of_find?_eq_some (find?_partRanges_iff.mpr hr),hholds⟩

/-- Two voices in two parts, the first of which starts after a note that is in none. -/
def inTwoParts : Tune Rat :=
  let note (part : Option Char) (pitch : Nat) (start : Rat) : Note Rat :=
    ⟨pitch,80,start,1,0,"1",[],false,part⟩
  { Tune.empty (.initial 1) with
    voices := [
      { Voice.new "1" with
        notes :=
          [note none 60 0, note (some 'A') 62 1, note (some 'A') 64 2, note (some 'B') 65 3] },
      { Voice.new "2" with notes := [note (some 'A') 48 1, note (some 'B') 50 4] }]
    length := 6 }

/-- The second part is asked for twice, around the first one. It ends where a third one starts, which
itself does not count, as its label was written before. Then there are only the first two, and both
are asked for as they were written. -/
theorem expandParts_endToEnd_inTwoParts :
    (∃ (parts : List (PartRange Rat)) (u : Tune Rat),
      inTwoParts.expandParts [⟨'A',1⟩,⟨'B',3⟩,⟨'A',5⟩] ['B', 'A', 'B'] = .ok u ∧
      EndToEnd 1 parts inTwoParts u ∧
      u.voices.map (·.notes.map (·.start)) = [[0, 1, 3, 4, 5], [2, 3, 6]] ∧ u.length = 7) ∧
    ∃ u, inTwoParts.expandParts [⟨'A',1⟩,⟨'B',3⟩] ['A', 'B'] = .ok u ∧ u.length = 6 ∧
      List.Forall₂ (fun v w => w.notes.Perm v.notes) inTwoParts.voices u.voices := by
  constructor
  · obtain ⟨parts,u,-,-,hexpand,hlaid,-⟩ := expandParts_endToEnd inTwoParts ⟨'A',1⟩
      [⟨'B',3⟩,⟨'A',5⟩] ['B', 'A', 'B'] (by decide +kernel) (by decide +kernel) (by simp)
    have hevaluated :
        (inTwoParts.expandParts [⟨'A',1⟩,⟨'B',3⟩,⟨'A',5⟩] ['B', 'A', 'B']).toOption.map
          (fun u => (u.voices.map (·.notes.map (·.start)),u.length)) =
        some ([[0, 1, 3, 4, 5], [2, 3, 6]],7) := by
      decide +kernel
    rw [hexpand] at hevaluated
    obtain ⟨hstarts,hlength⟩ := Prod.mk.inj (Option.some.inj hevaluated)
    exact ⟨parts,u,hexpand,hlaid,hstarts,hlength⟩
  · obtain ⟨parts,u,-,-,hexpand,-,hwritten⟩ := expandParts_endToEnd inTwoParts ⟨'A',1⟩
      [⟨'B',3⟩] ['A', 'B'] (by decide +kernel) (by decide +kernel) (by simp)
    have hheld : ∀ v ∈ inTwoParts.voices, ∀ n ∈ v.notes, n.part ≠ none →
        ∃ r ∈ partRanges 6 [⟨'A',1⟩,⟨'B',3⟩], r.holds n = true := by
      decide +kernel
    obtain ⟨hlength,hsame⟩ := hwritten rfl (by decide) fun v hv n hn hpart => by
      obtain ⟨r,hr,hholds⟩ := hheld v hv n hn hpart
      exact ⟨r,find?_partRanges_iff.mp (find?_of_nodup (by decide) hr),hholds⟩
    exact ⟨u,hexpand,hlength,hsame⟩

end AbcTune.Tune
