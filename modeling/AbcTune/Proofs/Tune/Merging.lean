import AbcTune.Proofs.Tune.Parts

/-! # Merging the voices

The notes of a tune are those of its voices, each of them once and sorted by start. The sort is
stable: notes that start together stay in the order of their voices and of their writing.
-/
namespace AbcTune

section Sorting

variable {α : Type} (key : α → Int)

theorem le_key_trans (a b c : α) (hab : decide (key a ≤ key b) = true)
    (hbc : decide (key b ≤ key c) = true) : decide (key a ≤ key c) = true := by
  simp only [decide_eq_true_eq] at hab hbc ⊢
  omega

theorem le_key_total (a b : α) : (decide (key a ≤ key b) || decide (key b ≤ key a)) = true := by
  simp only [Bool.or_eq_true, decide_eq_true_eq]
  omega

theorem pairwise_mergeSort_key (xs : List α) :
    (xs.mergeSort fun a b => key a ≤ key b).Pairwise fun a b => key a ≤ key b := by
  have hsorted := List.pairwise_mergeSort (le_key_trans key) (le_key_total key) xs
  simpa only [decide_eq_true_eq] using hsorted

/-- Values with the same key stay in their order. -/
theorem filter_mergeSort_key (xs : List α) (k : Int) :
    (xs.mergeSort fun a b => key a ≤ key b).filter (key · = k) = xs.filter (key · = k) := by
  have htied : (xs.filter (key · = k)).Pairwise fun a b => decide (key a ≤ key b) = true := by
    refine List.pairwise_iff_forall_sublist.mpr fun {a b} hab => ?_
    have ha := hab.subset List.mem_cons_self
    have hb := hab.subset (List.mem_cons_of_mem a List.mem_cons_self)
    simp only [List.mem_filter, decide_eq_true_eq] at ha hb ⊢
    omega
  have hkept := List.sublist_mergeSort (le_key_trans key) (le_key_total key) htied
    List.filter_sublist
  -- What is kept of the sorted list is all that has the key, and no less.
  have hfiltered := hkept.filter (key · = k)
  rw [List.filter_filter] at hfiltered
  simp only [Bool.and_self] at hfiltered
  exact (hfiltered.eq_of_length ((List.mergeSort_perm xs _).filter _).length_eq.symm).symm

end Sorting

namespace Tune

variable {t : Tune Float}

theorem Listed.arrangeParts (h : t.Listed) (sections : List (Section Float)) (line : Nat) :
    (t.arrangeParts sections line).1.Listed := by
  unfold Tune.arrangeParts
  split
  · exact h
  · exact h
  · next sequence _ _ =>
    unfold expandParts
    cases resolveParts (partRanges t.length sections) sequence with
    | error label => exact h
    | ok parts => exact h.arrange _ parts _

theorem Listed.assemble (h : t.Listed) (id : String) (sections : List (Section Float))
    (line : Nat) : (t.assemble id sections line).1.Listed := by
  let t' : Tune Float :=
    { t.withImplicitVoice id with length := writtenEnd (t.withImplicitVoice id).voices }
  have ht' : t'.Listed := ⟨(h.withImplicitVoice id).order,(h.withImplicitVoice id).ids⟩
  exact ⟨(ht'.arrangeParts sections line).order,(ht'.arrangeParts sections line).ids⟩

variable {source : Text}

theorem listed_of_read (h : read source = .ok t) : t.Listed := by
  rw [read_eq] at h
  obtain ⟨r,hread,rfl⟩ := exists_of_map_ok h
  have hdraft := TuneReading.listed_draft (TuneReading.labeled_ofSource hread).notes.order
  have hlisted := hdraft.assemble implicitVoice r.sections (r.settings.sequenceLine.getD 0)
  exact ⟨hlisted.order,hlisted.ids⟩

theorem mergeVoices_of_read (h : read source = .ok t) : t.events = t.mergeVoices := by
  rw [read_eq] at h
  obtain ⟨r,-,rfl⟩ := exists_of_map_ok h
  rfl

/-- Of a tune that is read, every voice is listed once, and every note of every voice is played
once. The notes are sorted by start in the total order of doubles. Those with the same start come
voice by voice in the order of declaration, and within a voice in the order they are stored in. -/
theorem read_merged (h : read source = .ok t) :
    (t.voices.map (·.id)).Nodup ∧ t.voiceOrder.Nodup ∧
      (∀ id, id ∈ t.voiceOrder ↔ ∃ v ∈ t.voices, v.id = id) ∧
      t.orderedVoices.map (·.id) = t.voiceOrder ∧
      List.Perm t.events (t.voices.flatMap (·.notes)) ∧
      t.events.Pairwise (fun m n => floatKey m.start ≤ floatKey n.start) ∧
      ∀ start : Float, t.events.filter (fun n => floatKey n.start = floatKey start) =
        t.orderedVoices.flatMap fun v =>
          v.notes.filter fun n => floatKey n.start = floatKey start := by
  have hvoices := (listed_of_read h).orderedVoices_eq
  obtain ⟨horder,hids⟩ := listed_of_read h
  have hevents : t.events = (t.voices.flatMap (·.notes)).mergeSort
      fun m n => floatKey m.start ≤ floatKey n.start := by
    rw [mergeVoices_of_read h, mergeVoices, hvoices]
    rfl
  refine ⟨hids,horder ▸ hids,?_,?_,?_,?_,?_⟩
  · intro id
    rw [horder]
    exact List.mem_map
  · rw [hvoices, horder]
  · rw [hevents]
    exact List.mergeSort_perm _ _
  · rw [hevents]
    exact pairwise_mergeSort_key (fun n : Note Float => floatKey n.start) _
  · intro start
    rw [hevents, hvoices, filter_mergeSort_key fun n : Note Float => floatKey n.start,
      List.filter_flatMap]

/-- The second voice is declared first, and both have notes at the first beat. -/
theorem read_merged_together :
    ∃ t, read "X:1\nL:1/4\nK:C\nV:2\nV:1\nC [DE]\nV:2\nG [AF]\n".toList = .ok t ∧
      t.voiceOrder = ["2", "1"] ∧
      (t.events.filter fun n => floatKey n.start = floatKey 1.0).map (·.pitch) =
        [69, 65, 62, 64] := by
  have hevaluated :
      (read "X:1\nL:1/4\nK:C\nV:2\nV:1\nC [DE]\nV:2\nG [AF]\n".toList).toOption.map
        (fun t => (t.voiceOrder,(t.orderedVoices.flatMap fun v =>
          v.notes.filter fun n => floatKey n.start = floatKey 1.0).map (·.pitch))) =
      some (["2", "1"],[69, 65, 62, 64]) := by
    decide +kernel
  obtain ⟨t,hread,ht⟩ := exists_of_toOption_map hevaluated
  rw [Prod.mk.injEq] at ht
  obtain ⟨-,-,-,-,-,-,htied⟩ := read_merged hread
  exact ⟨t,hread,ht.1,htied 1.0 ▸ ht.2⟩

end Tune
end AbcTune
