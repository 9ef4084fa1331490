import Mathlib.Tactic.Linarith
import Mathlib.Tactic.Positivity
import Mathlib.Tactic.Ring
import AbcTune.Proofs.Beat.Exact
import AbcTune.Proofs.Music.ChordPlaces

/-! # What writing does to the notes of a voice

A note that is placed is appended to the notes of its voice, or a note that is there already is
extended to its end. Grace notes are appended before their principal. All other changes go to
notes at places that are remembered, as often as their place is.
-/
namespace AbcTune

section Notes

variable {β : Type}

/-- Notes of which those at some places are changed, each once for each time that its place is
given. -/
def changeAt (f : Note β → Note β) (places : List Nat) (notes : List (Note β)) : List (Note β) :=
  notes.mapIdx fun i => f^[places.count i]

theorem getElem?_changeAt (f : Note β → Note β) (places : List Nat) (notes : List (Note β))
    (i : Nat) : (changeAt f places notes)[i]? = notes[i]?.map f^[places.count i] :=
  List.getElem?_mapIdx

theorem Voice.modifyNotes_eq {v w : Voice β} {f : Note β → Note β} {places : List Nat}
    (h : v.modifyNotes f places = .ok w) : w = { v with notes := changeAt f places v.notes } := by
  obtain ⟨notes,rfl,hnotes⟩ := Voice.modifyNotes_ok h
  have heq : notes = changeAt f places v.notes :=
    List.ext_getElem? fun i => (hnotes i).trans (getElem?_changeAt f places v.notes i).symm
  rw [heq]

theorem Voice.lt_of_modifyNotes {v w : Voice β} {f : Note β → Note β} {places : List Nat}
    (h : v.modifyNotes f places = .ok w) : ∀ i ∈ places, i < v.notes.length := by
  intro i hi
  by_contra hlong
  obtain ⟨fault,hfault⟩ := v.modifyNotes_eq_error f ⟨i,hi,Nat.le_of_not_lt hlong⟩
  cases h.symm.trans hfault

/-- Notes behind all places stay. -/
theorem changeAt_append {f : Note β → Note β} {places : List Nat} {notes : List (Note β)}
    (h : ∀ i ∈ places, i < notes.length) (more : List (Note β)) :
    changeAt f places (notes ++ more) = changeAt f places notes ++ more := by
  have hmore : more.mapIdx (fun i => f^[places.count (i + notes.length)]) = more := by
    refine List.ext_getElem? fun i => ?_
    have hcount : places.count (i + notes.length) = 0 :=
      List.count_eq_zero_of_not_mem fun hi => absurd (h _ hi) (by omega)
    rw [List.getElem?_mapIdx, hcount]
    exact Option.map_id'
  rw [changeAt, List.mapIdx_append, hmore]
  rfl

/-- What a change keeps holds of all notes behind it. -/
theorem forall_changeAt {P : Note β → Prop} {f : Note β → Note β} (hf : ∀ n, P n → P (f n))
    {places : List Nat} {notes : List (Note β)} (h : ∀ n ∈ notes, P n) :
    ∀ n ∈ changeAt f places notes, P n := by
  intro n hn
  obtain ⟨i,hi,rfl⟩ := List.mem_mapIdx.mp hn
  exact Function.Iterate.rec P (h _ (List.getElem_mem hi)) hf _

/-- A change that leaves starts alone leaves those of all notes alone. -/
theorem exists_of_changeAt {f : Note β → Note β} (hf : ∀ n, (f n).start = n.start)
    {places : List Nat} {notes : List (Note β)} {i : Nat} {n : Note β}
    (h : (changeAt f places notes)[i]? = some n) : ∃ n', notes[i]? = some n' ∧ n'.start = n.start := by
  rw [getElem?_changeAt] at h
  obtain ⟨n',hn',rfl⟩ := Option.map_eq_some_iff.mp h
  refine ⟨n',hn',?_⟩
  exact Function.Iterate.rec (fun n => n'.start = n.start) rfl (fun n hn => hn.trans (hf n).symm) _

/-- The place among those that a tie goes on from of the first note of a pitch. -/
def tiedPlace? (notes : List (Note β)) (pitch : Nat) (tied : List Nat) : Option Nat :=
  tied.find? fun i => notes[i]?.any (·.pitch = pitch)

theorem exists_of_tiedPlace? {notes : List (Note β)} {pitch i : Nat} {tied : List Nat}
    (h : tiedPlace? notes pitch tied = some i) :
    i ∈ tied ∧ ∃ n, notes[i]? = some n ∧ n.pitch = pitch := by
  refine ⟨List.mem_of_find?_eq_some h,?_⟩
  have hany := List.find?_some h
  obtain ⟨n,hn,hpitch⟩ := (Option.any_eq_true _ _).mp hany
  exact ⟨n,hn,of_decide_eq_true hpitch⟩

/-- Notes behind all places make no difference. -/
theorem tiedPlace?_append {notes : List (Note β)} {tied : List Nat}
    (h : ∀ i ∈ tied, i < notes.length) (more : List (Note β)) (pitch : Nat) :
    tiedPlace? (notes ++ more) pitch tied = tiedPlace? notes pitch tied := by
  unfold tiedPlace?
  induction tied with
  | nil => rfl
  | cons i rest ih =>
    obtain ⟨hi,hrest⟩ := List.forall_mem_cons.mp h
    rw [List.find?_cons, List.find?_cons, List.getElem?_append_left hi, ih hrest]

end Notes

/-! ## Placing -/

/-- Whether a note with these decorations is cut short. -/
def isStaccato (ds : List Decoration) : Bool := ds.any (·.kind = .staccato)

theorem Shading.staccato_ofDecorations (velocity : Int) (ds : List Decoration) :
    (Shading.ofDecorations velocity ds).staccato = isStaccato ds := by
  have happly (s : Shading) (d : Decoration) :
      (s.apply d).staccato = (s.staccato || decide (d.kind = .staccato)) := by
    unfold Shading.apply
    split <;> simp_all
  have hfold (s : Shading) :
      (ds.foldl Shading.apply s).staccato = (s.staccato || isStaccato ds) := by
    induction ds generalizing s with
    | nil => simp [isStaccato]
    | cons d ds ih =>
      rw [List.foldl_cons, ih, happly, Bool.or_assoc]
      rfl
  exact hfold _

/-- Notes before and behind one of a pitch that sounds from a start for some beats, which is
written at a place: it goes into the note of its pitch that a tie goes on from, or comes behind
all others. -/
inductive Lands (tied : List Nat) (pitch : Nat) (start beats : Rat) (notes : List (Note Rat)) :
    Nat → List (Note Rat) → Prop
  | tied {i : Nat} {n : Note Rat} (hplace : tiedPlace? notes pitch tied = some i)
      (hn : notes[i]? = some n) :
      Lands tied pitch start beats notes i
        (notes.set i { n with duration := start + beats - n.start })
  | appended {n : Note Rat} (hplace : tiedPlace? notes pitch tied = none)
      (hstart : n.start = start) (hduration : n.duration = beats) :
      Lands tied pitch start beats notes notes.length (notes ++ [n])

/-- How long a note that takes some beats sounds. -/
def soundingBeats (staccato : Bool) (beats : Rat) : Rat := if staccato then beats / 2 else beats

theorem lands_of_place {v w : Voice Rat} {m m' : VoiceMemory Rat} {p : Placement Rat}
    {part : Option Char} {i : Nat} (htied : ∀ i ∈ m.tiedFrom, i < v.notes.length)
    (h : place v m p part = .ok (w,m',i)) :
    w.id = v.id ∧ (∃ velocity, m' = { m with velocity }) ∧
      Lands m.tiedFrom (v.soundingPitch p.written) p.start
        (soundingBeats (isStaccato (p.decorations ++ m.spans)) p.advance) v.notes i w.notes := by
  have htwo : (2.0 : Rat) = 2 := by norm_num
  unfold place at h
  dsimp only at h
  rw [Voice.tiedNote_eq htied, ok_bind, Shading.staccato_ofDecorations, htwo] at h
  split at h
  · next j hj =>
    obtain ⟨u,hu,h⟩ := exists_of_bind_ok h
    cases h
    obtain ⟨n,hn,rfl⟩ := Voice.modifyNote_ok hu
    exact ⟨rfl,⟨_,rfl⟩,.tied hj hn⟩
  · next hnone =>
    cases h
    exact ⟨rfl,⟨_,rfl⟩,.appended hnone rfl rfl⟩

section Lands

variable {tied : List Nat} {pitch i : Nat} {start beats : Rat} {notes notes' : List (Note Rat)}

/-- A note ends where it is placed to end, whether or not it is tied. -/
theorem Lands.stop (h : Lands tied pitch start beats notes i notes') :
    ∃ n, notes'[i]? = some n ∧ n.stop = start + beats := by
  cases h with
  | @tied i n hplace hn =>
    have hi := (List.getElem?_eq_some_iff.mp hn).1
    refine ⟨_,List.getElem?_set_self hi,?_⟩
    unfold Note.stop
    ring
  | @appended n hplace hstart hduration =>
    refine ⟨n,List.getElem?_concat_length,?_⟩
    rw [Note.stop, hstart, hduration]

theorem Lands.place_eq (h : Lands tied pitch start beats notes i notes') :
    i = (tiedPlace? notes pitch tied).getD notes.length := by
  cases h with
  | tied hplace hn => rw [hplace, Option.getD_some]
  | appended hplace hstart hduration => rw [hplace, Option.getD_none]

theorem Lands.others (h : Lands tied pitch start beats notes i notes') {j : Nat} (hj : j ≠ i) :
    notes'[j]? = notes[j]? := by
  cases h with
  | tied hplace hn => exact List.getElem?_set_ne hj.symm
  | appended hplace hstart hduration =>
    rcases Nat.lt_or_gt_of_ne hj with hlt | hgt
    · exact List.getElem?_append_left hlt
    · rw [List.getElem?_eq_none (by simpa [Nat.succ_le_iff] using hgt),
        List.getElem?_eq_none hgt.le]

/-- The starts of the notes that are there stay, and a new note starts where it is placed. -/
theorem Lands.getElem?_start (h : Lands tied pitch start beats notes i notes') (j : Nat)
    {n : Note Rat} (hn : notes'[j]? = some n) :
    (∃ n', notes[j]? = some n' ∧ n.start = n'.start) ∨
      (j = i ∧ notes.length = i ∧ n.start = start) := by
  cases h with
  | @tied i m hplace hm =>
    by_cases hj : j = i
    · subst hj
      have hi := (List.getElem?_eq_some_iff.mp hm).1
      rw [List.getElem?_set_self hi] at hn
      exact .inl ⟨m,hm,(Option.some.inj hn).symm ▸ rfl⟩
    · rw [List.getElem?_set_ne (Ne.symm hj)] at hn
      exact .inl ⟨n,hn,rfl⟩
  | @appended m hplace hstart hduration =>
    rcases Nat.lt_or_ge j notes.length with hlt | hge
    · rw [List.getElem?_append_left hlt] at hn
      exact .inl ⟨n,hn,rfl⟩
    · rw [List.getElem?_append_right hge, List.getElem?_singleton] at hn
      split at hn
      · next hzero =>
        obtain rfl := Option.some.inj hn
        exact .inr ⟨by omega,rfl,hstart⟩
      · cases hn

/-- A note that is written starts no later than where it is placed and than the notes that a tie
goes on from. -/
theorem Lands.start_le (h : Lands tied pitch start beats notes i notes') {bound : Rat}
    (hstart : start ≤ bound) (htied : ∀ j ∈ tied, ∀ n ∈ notes[j]?, n.start ≤ bound) :
    ∀ n ∈ notes'[i]?, n.start ≤ bound := by
  intro n hn
  rcases h.getElem?_start i hn with ⟨n',hn',heq⟩ | ⟨-,-,heq⟩
  · cases h with
    | tied hplace hold => exact heq ▸ htied i (exists_of_tiedPlace? hplace).1 n' hn'
    | appended hplace hnew hduration =>
      rw [List.getElem?_eq_none le_rfl] at hn'
      cases hn'
  · exact heq ▸ hstart

theorem Lands.forall_start {P : Rat → Prop} (h : Lands tied pitch start beats notes i notes')
    (hstart : P start) (hnotes : ∀ n ∈ notes, P n.start) : ∀ n ∈ notes', P n.start := by
  intro n hn
  obtain ⟨j,hj⟩ := List.mem_iff_getElem?.mp hn
  rcases h.getElem?_start j hj with ⟨n',hn',heq⟩ | ⟨-,-,heq⟩
  · exact heq ▸ hnotes n' (List.mem_of_getElem? hn')
  · exact heq ▸ hstart

end Lands

/-! ## Grace notes -/

/-- The beats that grace notes take from a principal of the given length: all of theirs, and at
most half of its. -/
def borrowedBeats (graces : List (Grace Rat)) (principal : Rat) : Rat :=
  let total := Beats.sum (graces.map (·.beats))
  if total ≤ 0 then 0 else min total (principal / 2)

/-- Grace notes have become notes one behind the other from one time to another, each for its beats
times a factor. -/
def Laid (factor : Rat) : List (Grace Rat) → Rat → List (Note Rat) → Rat → Prop
  | [], start, [], stop => stop = start
  | g :: graces, start, n :: notes, stop =>
    n.start = start ∧ n.duration = g.beats * factor ∧ n.grace = true ∧
      Laid factor graces n.stop notes stop
  | _, _, _, _ => False

/-- What is known of the notes that grace notes become from a start on. -/
structure GraceNotes (graces : List (Grace Rat)) (start principal : Rat)
    (notes : List (Note Rat)) : Prop where
  empty : graces = [] → notes = []
  laid : (∀ g ∈ graces, 0 < g.beats) →
    ∃ factor, Laid factor graces start notes (start + borrowedBeats graces principal)
  follow : 0 ≤ principal → (∀ g ∈ graces, 0 ≤ g.beats) →
    ∀ n ∈ notes, start ≤ n.start ∧ 0 ≤ n.duration

theorem sum_cons (x : Rat) (xs : List Rat) : Beats.sum (x :: xs) = x + Beats.sum xs := by
  rw [Beats.sum_eq_sum, Beats.sum_eq_sum, List.sum_cons]

theorem sum_beats_pos {graces : List (Grace Rat)} (hne : graces ≠ [])
    (h : ∀ g ∈ graces, 0 < g.beats) : 0 < Beats.sum (graces.map (·.beats)) := by
  cases graces with
  | nil => exact absurd rfl hne
  | cons g rest =>
    obtain ⟨hg,hrest⟩ := List.forall_mem_cons.mp h
    have hnonneg : 0 ≤ Beats.sum (rest.map (·.beats)) := by
      clear h hne
      induction rest with
      | nil => exact Beats.zero_eq.ge
      | cons g' rest ih =>
        obtain ⟨hg',hrest⟩ := List.forall_mem_cons.mp hrest
        rw [List.map_cons, sum_cons]
        exact add_nonneg hg'.le (ih hrest)
    rw [List.map_cons, sum_cons]
    exact add_pos_of_pos_of_nonneg hg hnonneg

theorem addGraces_spec_exact (v : Voice Rat) (velocity : Int) (factor : Rat) (part : Option Char)
    (graces : List (Grace Rat)) (time : Rat) :
    ∃ more, addGraces v velocity factor part graces time =
        ({ v with notes := v.notes ++ more },
          time + Beats.sum (graces.map (·.beats)) * factor) ∧
      Laid factor graces time more (time + Beats.sum (graces.map (·.beats)) * factor) ∧
      (0 ≤ factor → (∀ g ∈ graces, 0 ≤ g.beats) →
        ∀ n ∈ more, time ≤ n.start ∧ 0 ≤ n.duration) := by
  induction graces generalizing v time with
  | nil =>
    have hstop : time + Beats.sum (([] : List (Grace Rat)).map (·.beats)) * factor = time := by
      simp [Beats.sum, Beats.zero_eq]
    exact ⟨[],by rw [addGraces, List.append_nil, hstop],hstop,
      fun _ _ _ hn => absurd hn List.not_mem_nil⟩
  | cons g rest ih =>
    let note : Note Rat :=
      { pitch := v.soundingPitch g.written
        velocity := v.scaleVelocity velocity.toNat
        start := time
        duration := g.beats * factor
        channel := v.channel
        voice := v.id
        decorations := []
        grace := true
        part }
    obtain ⟨more,hadded,hlaid,hmore⟩ := ih (v.addNote note) (time + g.beats * factor)
    have hstop : time + g.beats * factor + Beats.sum (rest.map (·.beats)) * factor =
        time + Beats.sum ((g :: rest).map (·.beats)) * factor := by
      rw [List.map_cons, sum_cons]
      ring
    refine ⟨note :: more,?_,⟨rfl,rfl,rfl,hstop ▸ hlaid⟩,fun hfactor hgraces => ?_⟩
    · rw [← hstop]
      refine hadded.trans ?_
      simp only [Voice.addNote, List.append_assoc, List.singleton_append]
    · obtain ⟨hg,hrest⟩ := List.forall_mem_cons.mp hgraces
      have hbeats : 0 ≤ g.beats * factor := mul_nonneg hg hfactor
      refine List.forall_mem_cons.mpr ⟨⟨le_rfl,hbeats⟩,fun n hn => ?_⟩
      obtain ⟨hstart,hduration⟩ := hmore hfactor hrest n hn
      exact ⟨(le_add_of_nonneg_right hbeats).trans hstart,hduration⟩

theorem placeGraces_spec_exact (v : Voice Rat) (velocity : Int) (graces : List (Grace Rat))
    (start principal : Rat) (part : Option Char) :
    ∃ more, placeGraces v velocity graces start principal part =
        ({ v with notes := v.notes ++ more },borrowedBeats graces principal) ∧
      GraceNotes graces start principal more := by
  have hshare : (mostGraceShare : Rat) = 1 / 2 := by norm_num [mostGraceShare]
  have hone : (1.0 : Rat) = 1 := by norm_num
  unfold placeGraces
  dsimp only
  rw [Beats.zero_eq, hshare, hone]
  by_cases hle : Beats.sum (graces.map (·.beats)) ≤ 0
  · have hborrowed : borrowedBeats graces principal = 0 := if_pos hle
    have hstop : start + borrowedBeats graces principal = start := by rw [hborrowed, add_zero]
    rw [if_pos hle, hborrowed]
    refine ⟨[],by rw [List.append_nil],fun _ => rfl,fun hbeats => ⟨1,?_⟩,
      fun _ _ _ hn => absurd hn List.not_mem_nil⟩
    cases graces with
    | nil => exact hstop
    | cons g rest => exact absurd hle (sum_beats_pos (List.cons_ne_nil g rest) hbeats).not_ge
  · have hborrowed : borrowedBeats graces principal =
        min (Beats.sum (graces.map (·.beats))) (principal / 2) := if_neg hle
    have hpos : 0 < Beats.sum (graces.map (·.beats)) := not_le.mp hle
    have hgraces : graces ≠ [] := by
      rintro rfl
      exact hle Beats.zero_eq.le
    rw [if_neg hle]
    obtain ⟨more,hadded,hlaid,hmore⟩ := addGraces_spec_exact v velocity
      (if principal * (1 / 2) < Beats.sum (graces.map (·.beats))
        then principal * (1 / 2) / Beats.sum (graces.map (·.beats)) else 1) part graces start
    generalize Beats.sum (graces.map (·.beats)) = total at *
    have hfactor :
        total * (if principal * (1 / 2) < total then principal * (1 / 2) / total else 1) =
          borrowedBeats graces principal := by
      rw [hborrowed]
      split
      · next hlt =>
        rw [mul_div_cancel₀ _ hpos.ne', min_eq_right (by linarith)]
        ring
      · next hge => rw [mul_one, min_eq_left (by linarith)]
    rw [hfactor] at hadded hlaid
    refine ⟨more,?_,fun hnil => absurd hnil hgraces,fun _ => ⟨_,hlaid⟩,
      fun hprincipal hbeats => hmore ?_ hbeats⟩
    · rw [hadded]
      dsimp only
      rw [add_sub_cancel_left]
    · split
      · positivity
      · exact zero_le_one

section Borrowed

variable {graces : List (Grace Rat)} {principal : Rat}

theorem borrowedBeats_nil (principal : Rat) : borrowedBeats [] principal = 0 := by
  simp [borrowedBeats, Beats.sum, Beats.zero_eq]

theorem graceNotes_nil (start principal : Rat) : GraceNotes [] start principal [] where
  empty _ := rfl
  laid _ := by
    refine ⟨1,?_⟩
    rw [borrowedBeats_nil, add_zero]
    rfl
  follow _ _ _ hn := absurd hn List.not_mem_nil

theorem borrowedBeats_nonneg (h : 0 ≤ principal) : 0 ≤ borrowedBeats graces principal := by
  unfold borrowedBeats
  dsimp only
  split
  · exact le_rfl
  · next hpos => exact le_min (not_le.mp hpos).le (by linarith)

theorem borrowedBeats_le (h : 0 ≤ principal) : borrowedBeats graces principal ≤ principal / 2 := by
  unfold borrowedBeats
  dsimp only
  split
  · linarith
  · exact min_le_right _ _

end Borrowed

end AbcTune
