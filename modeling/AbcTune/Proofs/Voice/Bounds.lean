import AbcTune.Proofs.Music.Bounds
import AbcTune.Proofs.Voice.Clocks

/-! # Voices within bounds

A table is bounded after some tokens if its clocks and all of its notes are. Switching, defining
and creating voices only pass clocks on, and a sync chooses among them.
-/
namespace AbcTune

open Number

/-- A voice whose clock and notes are bounded after `n` tokens. -/
structure Voice.Bounded (n : Nat) (v : Voice Float) : Prop where
  savedTime : Clock n v.savedTime
  notes : ∀ note ∈ v.notes, Start n note.start ∧ Held n note.duration

namespace Voice

variable {m n : Nat} {v w : Voice Float} {P : Note Float → Prop}

theorem Bounded.mono (h : v.Bounded m) (hle : m ≤ n) : v.Bounded n :=
  ⟨h.savedTime.more hle le_rfl,fun note hnote =>
    ⟨(h.notes note hnote).1.more hle le_rfl,(h.notes note hnote).2.more (by omega) le_rfl⟩⟩

theorem Bounded.starts (h : v.Bounded n) : ∀ note ∈ v.notes, Start n note.start :=
  fun note hnote => (h.notes note hnote).1

theorem Changed.bounded (h : Changed P v w) (hv : v.Bounded n)
    (himp : ∀ note, P note → Start n note.start ∧ Held n note.duration) : w.Bounded n := by
  refine ⟨?_,h.forall himp hv.notes⟩
  rw [h.settings]
  exact hv.savedTime

theorem Changed.id_eq (h : Changed P v w) : w.id = v.id := by
  rw [h.settings]

end Voice

namespace VoiceTable

variable {m n : Nat} {t : VoiceTable Float} {v w : Voice Float} {id : String}

structure Bounded (n : Nat) (t : VoiceTable Float) : Prop where
  each : t.Each (Voice.Bounded n)
  active : t.HasActive
  cursor : Clock n t.cursor

theorem Bounded.mono (h : t.Bounded m) (hle : m ≤ n) : t.Bounded n :=
  ⟨h.each.imp fun _ hv => hv.mono hle,h.active,h.cursor.more hle le_rfl⟩

theorem bounded_new (hnotes : v.notes = []) (htime : v.savedTime = 0.0) : v.Bounded n := by
  constructor
  · rw [htime]
    exact within_zero .positive
  · rw [hnotes]
    exact fun _ hnote => absurd hnote List.not_mem_nil

theorem bounded_empty : (VoiceTable.empty : VoiceTable Float).Bounded n :=
  ⟨each_empty,fun _ hid => (Option.not_mem_none _ hid).elim,within_zero .positive⟩

theorem Bounded.find? (h : t.Bounded n) (hv : t.find? id = some v) : v.Bounded n :=
  h.each.voices v (List.mem_of_find?_eq_some hv)

theorem Bounded.define (h : t.Bounded n) (id : String) (a : Attributes) :
    (t.define id a).Bounded n := by
  refine ⟨h.each.define (fun _ => bounded_new) (fun _ _ hv => ⟨hv.savedTime,hv.notes⟩) id a,
    h.active.define id a,?_⟩
  rw [cursor_define]
  exact h.cursor

theorem Bounded.switchTo (h : t.Bounded n) (id : String) : (t.switchTo id).Bounded n := by
  have hactive := h.active.switchTo id
  unfold VoiceTable.switchTo at hactive ⊢
  split
  · exact h
  · next hother =>
    rw [if_neg hother] at hactive
    have hsuspended : t.suspend.Each (Voice.Bounded n) ∧ t.suspend.cursor = t.cursor := by
      unfold VoiceTable.suspend
      split
      · next a ha =>
        let save (v : Voice Float) : Voice Float :=
          { v with savedTime := t.cursor, status := .suspended }
        have hsaved : (t.modify a save).Each (Voice.Bounded n) :=
          h.each.modify save (fun _ hv => hv) fun _ hv => ⟨h.cursor,hv.notes⟩
        exact ⟨⟨hsaved.order,hsaved.voices⟩,rfl⟩
      · exact ⟨h.each,rfl⟩
    have hensured := hsuspended.1.ensure (fun _ => bounded_new) id .none
    have hcursor : (t.suspend.ensure id .none).cursor = t.cursor :=
      (cursor_ensure _ _ _).trans hsuspended.2
    let take (v : Voice Float) : Voice Float := { v with status := .active }
    have htaken : ((t.suspend.ensure id .none).modify id take).Each (Voice.Bounded n) :=
      hensured.modify take (fun _ hv => hv) fun _ hv => ⟨hv.savedTime,hv.notes⟩
    refine ⟨⟨htaken.order,htaken.voices⟩,hactive,?_⟩
    change Clock n (((((t.suspend.ensure id .none).find? id).map (·.savedTime)).getD
      (t.suspend.ensure id .none).cursor))
    cases hfind : (t.suspend.ensure id .none).find? id with
    | none =>
      rw [hcursor]
      exact h.cursor
    | some v => exact (hensured.voices v (List.mem_of_find?_eq_some hfind)).savedTime

theorem Bounded.ensureActive (h : t.Bounded n) : t.ensureActive.Bounded n :=
  h.switchTo t.noteVoice

theorem Bounded.ensureSettings (h : t.Bounded n) : t.ensureSettings.Bounded n := by
  unfold VoiceTable.ensureSettings
  split
  · exact h
  · exact h.define implicitVoice .none

theorem Bounded.advance (h : t.Bounded n) {beats : Float} (hcursor : Clock n (t.cursor + beats)) :
    (t.advance beats).Bounded n := ⟨⟨h.each.order,h.each.voices⟩,h.active,hcursor⟩

theorem Bounded.syncAll (h : t.Bounded n) : t.syncAll.Bounded n := by
  have hlatest : Clock n t.latestTime := by
    refine within_foldl_later h.cursor fun time htime => ?_
    obtain ⟨v,hv,rfl⟩ := List.mem_map.mp htime
    exact (h.each.voices v (List.mem_of_mem_filter hv)).savedTime
  refine ⟨⟨(order_syncAll t).symm ▸ h.each.order,fun w hw => ?_⟩,h.active.syncAll,hlatest⟩
  obtain ⟨v,hv,rfl⟩ := List.mem_map.mp hw
  exact ⟨hlatest,(h.each.voices v hv).notes⟩

theorem Bounded.setVoice (h : t.Bounded n) (hw : w.Bounded n) :
    (t.modify w.id fun _ => w).Bounded n := by
  have heach : (t.modify w.id fun _ => w).Each (Voice.Bounded n) :=
    h.each.modify (fun _ => w) (fun _ _ => rfl) fun _ _ => hw
  refine ⟨heach,fun id hid => ?_,h.cursor⟩
  rw [contains_modify _ fun _ _ => rfl]
  exact h.active id hid

theorem Bounded.close (h : t.Bounded n) : ∀ v ∈ t.close, v.Bounded n := by
  unfold VoiceTable.close
  split
  · exact (h.each.modify (fun v => { v with savedTime := t.cursor }) (fun _ hv => hv)
      fun _ hv => ⟨h.cursor,hv.notes⟩).voices
  · exact h.each.voices

end VoiceTable
end AbcTune
