import AbcTune.Proofs.Beat.Latest
import AbcTune.Proofs.Tune.Merging

/-! # In whatever order the voices are visited

The voices are kept by id. Where all of them are visited, to find the latest time or to change each
of them, nothing says in which order. It makes no difference to what comes out: only the merged
notes depend on an order, and that is the order of declaration, which is kept apart.
-/
namespace AbcTune

/-! ## Voices by id -/

section Voices

variable {β : Type} {voices visited : List (Voice β)}

/-- The same voices in another order, each under an id of its own. -/
structure Revisited (voices visited : List (Voice β)) : Prop where
  ids : (voices.map (·.id)).Nodup
  perm : visited.Perm voices

namespace Revisited

theorem find?_eq (h : Revisited voices visited) (id : String) :
    visited.find? (·.id = id) = voices.find? (·.id = id) := by
  cases hfind : voices.find? (·.id = id) with
  | none =>
    rw [List.find?_eq_none] at hfind ⊢
    exact fun v hv => hfind v (h.perm.mem_iff.mp hv)
  | some v =>
    obtain rfl : v.id = id := by simpa using List.find?_some hfind
    have hids : (visited.map (·.id)).Nodup := (h.perm.map (·.id)).nodup_iff.mpr h.ids
    exact find?_of_nodup hids (h.perm.mem_iff.mpr (List.mem_of_find?_eq_some hfind))

/-- Changing the voices one by one keeps them apart. -/
theorem map (h : Revisited voices visited) (f : Voice β → Voice β) (hf : ∀ v, (f v).id = v.id) :
    Revisited (voices.map f) (visited.map f) := by
  refine ⟨?_,h.perm.map f⟩
  rw [List.map_map]
  exact (List.map_congr_left fun v _ => hf v) ▸ h.ids

end Revisited

end Voices

/-! ## The sync of a table -/

namespace VoiceTable

def visiting {β : Type} (t : VoiceTable β) (voices : List (Voice β)) : VoiceTable β :=
  { t with voices }

section Tables

variable {voices visited : List (Voice Float)} {t : VoiceTable Float}

theorem latestTime_visiting_beq (h : visited.Perm voices) (hcursor : t.cursor.isNaN = false) :
    ((t.visiting visited).latestTime == (t.visiting voices).latestTime) = true :=
  Number.foldl_later_beq (Number.not_isNaN_iff.mp hcursor) ((h.filter _).map _)

theorem latestTime_visiting (h : visited.Perm voices) (hcursor : 0.0 ≤ t.cursor) :
    (t.visiting visited).latestTime = (t.visiting voices).latestTime :=
  Number.foldl_later_perm hcursor ((h.filter _).map _)

theorem find?_syncAll_visiting (h : Revisited voices visited) (id : String) :
    (t.visiting visited).syncAll.find? id =
      ((t.visiting voices).find? id).map fun v =>
        { v with savedTime := (t.visiting visited).latestTime } := by
  rw [find?_syncAll]
  exact congrArg _ (h.find?_eq id)

theorem savedTime_visiting_beq (h : Revisited voices visited) (hcursor : t.cursor.isNaN = false)
    (id : String) :
    (((t.visiting visited).syncAll.find? id).map (·.savedTime) ==
      ((t.visiting voices).syncAll.find? id).map (·.savedTime)) = true := by
  rw [find?_syncAll_visiting h, find?_syncAll]
  cases (t.visiting voices).find? id with
  | none => rfl
  | some v => exact latestTime_visiting_beq h.perm hcursor

end Tables

end VoiceTable

/-! ## The assembly of a tune -/

namespace Tune

def visiting {β : Type} (t : Tune β) (voices : List (Voice β)) : Tune β := { t with voices }

/-- Tunes that differ at most in the order in which their voices are visited. -/
structure Reordered {β : Type} (t u : Tune β) : Prop where
  voices : Revisited t.voices u.voices
  others : u = t.visiting u.voices

section Tunes

variable {t u : Tune Float}

namespace Reordered

theorem voice?_eq (h : Reordered t u) (id : String) : u.voice? id = t.voice? id :=
  h.voices.find?_eq id

theorem orderedVoices_eq (h : Reordered t u) : u.orderedVoices = t.orderedVoices := by
  have horder : u.voiceOrder = t.voiceOrder := by rw [h.others, visiting]
  unfold orderedVoices
  rw [horder, funext h.voice?_eq]

theorem mergeVoices_eq (h : Reordered t u) : u.mergeVoices = t.mergeVoices := by
  unfold mergeVoices
  rw [h.orderedVoices_eq]

theorem writtenEnd_eq (h : Reordered t u) : writtenEnd u.voices = writtenEnd t.voices :=
  Number.foldl_later_perm (by decide +kernel) (h.voices.perm.flatMap_right _)

/-- What is set in both alike leaves no difference but the order. -/
theorem withLength (h : Reordered t u) :
    Reordered { t with length := writtenEnd t.voices }
      { u with length := writtenEnd u.voices } := by
  refine ⟨h.voices,?_⟩
  rw [h.writtenEnd_eq, h.others]
  rfl

theorem withEvents (h : Reordered t u) :
    Reordered { t with events := t.mergeVoices } { u with events := u.mergeVoices } := by
  refine ⟨h.voices,?_⟩
  rw [h.mergeVoices_eq, h.others]
  rfl

theorem withImplicitVoice (h : Reordered t u) (id : String) :
    Reordered (t.withImplicitVoice id) (u.withImplicitVoice id) := by
  unfold Tune.withImplicitVoice
  rw [h.voices.perm.isEmpty_eq]
  split
  · refine ⟨⟨List.nodup_singleton id,.refl _⟩,?_⟩
    rw [h.others]
    rfl
  · exact h

theorem arrangeParts (h : Reordered t u) (sections : List (Section Float)) (line : Nat) :
    Reordered (t.arrangeParts sections line).1 (u.arrangeParts sections line).1 ∧
      (u.arrangeParts sections line).2 = (t.arrangeParts sections line).2 := by
  have hheading : u.heading = t.heading := by rw [h.others, visiting]
  have hlength : u.length = t.length := by rw [h.others, visiting]
  unfold Tune.arrangeParts
  rw [hheading]
  split
  · exact ⟨h,rfl⟩
  · exact ⟨h,rfl⟩
  · next sequence _ _ =>
    unfold expandParts
    rw [hlength]
    cases resolveParts (partRanges t.length sections) sequence with
    | error label => exact ⟨h,rfl⟩
    | ok parts =>
      refine ⟨⟨h.voices.map (arrange _ parts) fun _ => rfl,?_⟩,rfl⟩
      rw [h.others]
      rfl

theorem assemble (h : Reordered t u) (id : String) (sections : List (Section Float)) (line : Nat) :
    Reordered (t.assemble id sections line).1 (u.assemble id sections line).1 ∧
      (u.assemble id sections line).2 = (t.assemble id sections line).2 := by
  obtain ⟨harranged,hproblem⟩ := (h.withImplicitVoice id).withLength.arrangeParts sections line
  exact ⟨harranged.withEvents,hproblem⟩

end Reordered

end Tunes

end Tune

variable {voices visited : List (Voice Float)}

/-- Whatever the order in which voices are visited, a sync takes the cursor and the saved times to
the same number, and from the first beat on to the same double: before it a zero may come out with
either sign. Times that are no number are passed over. The assembly of a tune has the same problem,
length and events, and the same notes in each voice. -/
theorem visits_agree (hids : (voices.map (·.id)).Nodup) (hvisited : visited.Perm voices) :
    (∀ t : VoiceTable Float, t.cursor.isNaN = false →
      ((t.visiting visited).syncAll.cursor == (t.visiting voices).syncAll.cursor) = true ∧
        ∀ id, (((t.visiting visited).syncAll.find? id).map (·.savedTime) ==
          ((t.visiting voices).syncAll.find? id).map (·.savedTime)) = true) ∧
    (∀ t : VoiceTable Float, 0.0 ≤ t.cursor →
      (t.visiting visited).syncAll.cursor = (t.visiting voices).syncAll.cursor ∧
        ∀ id, (t.visiting visited).syncAll.find? id = (t.visiting voices).syncAll.find? id) ∧
    ∀ (t : Tune Float) (id : String) (sections : List (Section Float)) (line : Nat)
      (one other : Tune Float × Option Diagnostic),
      (t.visiting voices).assemble id sections line = one →
      (t.visiting visited).assemble id sections line = other →
        other.2 = one.2 ∧ other.1.length = one.1.length ∧ other.1.events = one.1.events ∧
          ∀ voice, other.1.voice? voice = one.1.voice? voice := by
  have h : Revisited voices visited := ⟨hids,hvisited⟩
  refine ⟨fun t hcursor => ⟨VoiceTable.latestTime_visiting_beq hvisited hcursor,
    VoiceTable.savedTime_visiting_beq h hcursor⟩,fun t hcursor => ?_,?_⟩
  · have hlatest := VoiceTable.latestTime_visiting hvisited hcursor
    refine ⟨hlatest,fun id => ?_⟩
    rw [VoiceTable.find?_syncAll_visiting h, hlatest, VoiceTable.find?_syncAll]
  · rintro t id sections line one other rfl rfl
    have hreordered : Tune.Reordered (t.visiting voices) (t.visiting visited) := ⟨h,rfl⟩
    obtain ⟨hassembled,hproblem⟩ := hreordered.assemble id sections line
    have hlength := congrArg Tune.length hassembled.others
    have hevents := congrArg Tune.events hassembled.others
    exact ⟨hproblem,hlength,hevents,hassembled.voice?_eq⟩

/-- Two voices with notes that start together, and a third one that has none. -/
def trio : List (Voice Float) :=
  let voice (id : String) (savedTime : Float) (notes : List (Note Float)) : Voice Float :=
    { (Voice.new id : Voice Float) with savedTime, notes }
  let note (part : Option Char) (pitch : Nat) (start : Float) : Note Float :=
    ⟨pitch,80,start,1.0,0,"1",[],false,part⟩
  [voice "1" 3.0 [note none 60 0.0,note (some 'A') 62 1.0,note (some 'B') 64 2.0],
    voice "2" 4.0 [note (some 'A') 48 1.0,note (some 'B') 50 2.0],
    voice "3" 1.5 []]

/-- Visited from the last voice to the first, the voices end together where they did before, and the
second part is laid out before the first one. -/
theorem visits_agree_backward :
    ((VoiceTable.empty.visiting trio.reverse).syncAll.cursor = 4.0 ∧
      ∀ id, (((VoiceTable.empty.visiting trio.reverse).syncAll.find? id).map (·.savedTime) ==
        ((VoiceTable.empty.visiting trio).syncAll.find? id).map (·.savedTime)) = true) ∧
    ∃ t one other : Tune Float,
      (t.visiting trio).assemble "1" [⟨'A',1.0⟩,⟨'B',2.0⟩] 2 = (one,none) ∧
      (t.visiting trio.reverse).assemble "1" [⟨'A',1.0⟩,⟨'B',2.0⟩] 2 = (other,none) ∧
      one.voices.map (·.id) = ["1", "2", "3"] ∧ other.voices.map (·.id) = ["3", "2", "1"] ∧
      (other.voice? "1").map (·.notes.map (·.pitch)) = some [60, 64, 62] ∧
      other.events = one.events := by
  have hids : (trio.map (·.id)).Nodup := by decide +kernel
  obtain ⟨hnumbers,hdoubles,hassembled⟩ := visits_agree hids (List.reverse_perm trio)
  constructor
  · have hforward : (VoiceTable.empty.visiting trio).syncAll.cursor = 4.0 := by decide +kernel
    exact ⟨(hdoubles .empty (by decide +kernel)).1.trans hforward,
      (hnumbers .empty (by decide +kernel)).2⟩
  · let t : Tune Float :=
      { Tune.empty { Heading.initial 0.125 with partSequence := some ['B', 'A'] } with
        voiceOrder := ["1", "2", "3"] }
    let sections : List (Section Float) := [⟨'A',1.0⟩,⟨'B',2.0⟩]
    obtain ⟨hproblem,-,hevents,hvoices⟩ := hassembled t "1" sections 2 _ _ rfl rfl
    have hnone : ((t.visiting trio).assemble "1" sections 2).2 = none := by decide +kernel
    have hnotes : (((t.visiting trio).assemble "1" sections 2).1.voice? "1").map
        (·.notes.map (·.pitch)) = some [60, 64, 62] := by
      decide +kernel
    rw [← hvoices "1"] at hnotes
    exact ⟨t,_,_,Prod.ext rfl hnone,Prod.ext rfl (hproblem.trans hnone),by decide +kernel,
      by decide +kernel,hnotes,hevents⟩

end AbcTune
