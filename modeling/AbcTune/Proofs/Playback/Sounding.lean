import Mathlib.Data.List.Chain
import Mathlib.Data.List.Perm.Basic
import AbcTune.Proofs.Playback.Steps

/-! # What sounds

A backend that takes every message has those keys down that the player counts as sounding. A note
leaves the list of the player because it is due, because its key is struck again, because it has to
make room, or because everything is released; each time its key is lifted, and each key is pressed
and lifted in turn.
-/
namespace AbcTune

namespace Message

/-- What a message does to a key: pressing it is `true`, and lifting it is `false`. -/
def stroke? (key : Nat × Nat) : Message → Option Bool
  | .noteOn channel pitch _ => if (channel,pitch) = key then some true else none
  | .noteOff channel pitch => if (channel,pitch) = key then some false else none
  | .programChange _ _ => none

/-- What is done to a key by a list of messages. -/
def strokes (key : Nat × Nat) (ms : List Message) : List Bool := ms.filterMap (stroke? key)

def lift (key : Nat × Nat) : Message := .noteOff key.1 key.2

/-- After some messages these keys are down, each once, and all keys were pressed and lifted in
turn, with a press first. -/
structure Orderly (ms : List Message) (down : List (Nat × Nat)) : Prop where
  sounding : List.Perm (sounding ms) down
  nodup : down.Nodup
  inTurn : ∀ key, List.IsChain (· ≠ ·) (false :: strokes key ms)
  last : ∀ key, (false :: strokes key ms).getLast? = some (decide (key ∈ down))

variable {ms : List Message} {down rest : List (Nat × Nat)} {channel pitch : Nat}

theorem sounding_concat (ms : List Message) (m : Message) :
    sounding (ms ++ [m]) = press (sounding ms) m := by
  simp [sounding, List.foldl_append]

theorem strokes_concat (key : Nat × Nat) (ms : List Message) (m : Message) :
    strokes key (ms ++ [m]) = strokes key ms ++ (stroke? key m).toList := by
  rw [strokes, List.filterMap_append]
  cases h : stroke? key m <;> simp [strokes, h]

theorem orderly_nil : Orderly [] [] where
  sounding := .nil
  nodup := .nil
  inTurn _ := .singleton false
  last _ := rfl

theorem Orderly.perm (h : Orderly ms down) (hperm : List.Perm down rest) : Orderly ms rest where
  sounding := h.sounding.trans hperm
  nodup := hperm.nodup h.nodup
  inTurn := h.inTurn
  last key := by rw [h.last key, decide_eq_decide.mpr hperm.mem_iff]

/-- A stroke that differs from the last one goes on in turn. -/
private theorem isChain_concat {strokes : List Bool} {last stroke : Bool}
    (h : List.IsChain (· ≠ ·) (false :: strokes))
    (hlast : (false :: strokes).getLast? = some last) (hne : last ≠ stroke) :
    List.IsChain (· ≠ ·) (false :: (strokes ++ [stroke])) := by
  rw [← List.cons_append]
  refine h.append (.singleton stroke) ?_
  intro x hx y hy
  rw [hlast] at hx
  cases Option.mem_some_iff.mp hx
  cases Option.mem_some_iff.mp hy
  exact hne

/-- Messages that go on orderly if they do so for the key that is struck. -/
private theorem Orderly.concat (h : Orderly ms down) {m : Message} (key : Nat × Nat)
    (stroke : Bool) (hsounding : List.Perm (Message.sounding (ms ++ [m])) rest)
    (hnodup : rest.Nodup) (hstroke : stroke? key m = some stroke)
    (hother : ∀ other ≠ key, stroke? other m = none ∧ (other ∈ rest ↔ other ∈ down))
    (hbefore : decide (key ∈ down) ≠ stroke) (hafter : decide (key ∈ rest) = stroke) :
    Orderly (ms ++ [m]) rest := by
  refine ⟨hsounding,hnodup,fun other => ?_,fun other => ?_⟩
  · rw [strokes_concat]
    by_cases hkey : other = key
    · rw [hkey, hstroke]
      exact isChain_concat (h.inTurn key) (h.last key) hbefore
    · rw [(hother other hkey).1, Option.toList_none, List.append_nil]
      exact h.inTurn other
  · rw [strokes_concat]
    by_cases hkey : other = key
    · rw [hkey, hstroke, hafter, Option.toList_some, ← List.cons_append, List.getLast?_concat]
    · rw [(hother other hkey).1, Option.toList_none, List.append_nil, h.last other,
        decide_eq_decide.mpr (hother other hkey).2]

theorem Orderly.press (h : Orderly ms down) (hkey : (channel,pitch) ∉ down) (velocity : Nat) :
    Orderly (ms ++ [.noteOn channel pitch velocity]) (down ++ [(channel,pitch)]) := by
  refine h.concat (channel,pitch) true ?_ ?_ ?_ ?_ ?_ ?_
  · rw [sounding_concat]
    exact h.sounding.append_right _
  · exact (List.perm_append_singleton _ _).symm.nodup (List.nodup_cons.mpr ⟨hkey,h.nodup⟩)
  · simp [stroke?]
  · intro other hne
    simp [stroke?, hne, hne.symm]
  · simp [hkey]
  · simp

theorem Orderly.lift {key : Nat × Nat} (h : Orderly ms (key :: down)) :
    Orderly (ms ++ [lift key]) down := by
  obtain ⟨hkey,hnodup⟩ := List.nodup_cons.mp h.nodup
  refine h.concat key false ?_ hnodup ?_ ?_ ?_ ?_
  · rw [sounding_concat]
    have herase := h.sounding.erase key
    rwa [List.erase_cons_head] at herase
  · simp [stroke?, Message.lift]
  · intro other hne
    simp [stroke?, Message.lift, hne, hne.symm]
  · simp
  · simp [hkey]

theorem Orderly.change (h : Orderly ms down) (program : Nat) :
    Orderly (ms ++ [.programChange channel program]) down where
  sounding := by
    rw [sounding_concat]
    exact h.sounding
  nodup := h.nodup
  inTurn key := by
    rw [strokes_concat]
    exact (List.append_nil (strokes key ms)).symm ▸ h.inTurn key
  last key := by
    rw [strokes_concat]
    exact (List.append_nil (strokes key ms)).symm ▸ h.last key

theorem Orderly.lifts {keys : List (Nat × Nat)} (h : Orderly ms (keys ++ rest)) :
    Orderly (ms ++ keys.map Message.lift) rest := by
  induction keys generalizing ms with
  | nil =>
    rw [List.map_nil, List.append_nil]
    exact h
  | cons key keys ih =>
    rw [List.map_cons, List.append_cons]
    exact ih (Orderly.lift h)

end Message

variable {β : Type}

def ActiveNote.key (n : ActiveNote β) : Nat × Nat := (n.channel,n.pitch)

namespace Player

/-- The keys of the notes that a player counts as sounding. -/
def keys (p : Player β) : List (Nat × Nat) := p.active.map ActiveNote.key

/-- After these messages the keys of the player are down, and there is room for all of them. -/
structure Shows (most : Nat) (p : Player β) (ms : List Message) : Prop where
  orderly : Message.Orderly ms p.keys
  capacity : p.capacity = most
  room : p.active.length ≤ most

theorem perm_find_eraseP (f : ActiveNote β → Bool) (active : List (ActiveNote β)) :
    List.Perm active ((active.find? f).toList ++ active.eraseP f) := by
  induction active with
  | nil => exact .nil
  | cons n active ih =>
    cases hn : f n with
    | true => rw [List.find?_cons_of_pos hn, List.eraseP_cons_of_pos hn]; exact .refl _
    | false =>
      rw [List.find?_cons_of_neg (by simp [hn]), List.eraseP_cons_of_neg (by simp [hn])]
      exact (ih.cons n).trans List.perm_middle.symm

variable {b : Backend} {p q : Player β} {sent : List Emission} {ms : List Message} {most : Nat}
variable (haccepts : ∀ m, b.refusal? m = none)

include haccepts

/-! ## Leaving the list -/

theorem taken_offs (ns : List (ActiveNote β)) :
    Emission.taken (ns.map (off b)) = (ns.map ActiveNote.key).map Message.lift := by
  induction ns with
  | nil => rfl
  | cons n ns ih =>
    have hoff : (off b n).taken? = some (Message.lift n.key) := by
      simp [off, Backend.send, haccepts, Emission.taken?, Message.lift, ActiveNote.key]
    rw [List.map_cons, Emission.taken, List.filterMap_cons, hoff]
    exact congrArg (Message.lift n.key :: ·) ih

/-- Notes that leave the list have their keys lifted. -/
theorem Shows.leave (h : Shows most p ms) {gone left : List (ActiveNote β)}
    (hperm : List.Perm p.active (gone ++ left)) :
    Shows most { p with active := left } (ms ++ Emission.taken (gone.map (off b))) := by
  refine ⟨?_,h.capacity,?_⟩
  · rw [taken_offs haccepts]
    have hkeys : List.Perm p.keys (gone.map ActiveNote.key ++ left.map ActiveNote.key) := by
      rw [← List.map_append]
      exact hperm.map _
    exact (h.orderly.perm hkeys).lifts
  · have hlength := hperm.length_eq
    have hroom := h.room
    rw [List.length_append] at hlength
    dsimp only
    omega

theorem Shows.releaseAll (h : Shows most p ms) :
    Shows most (p.releaseAll b).1 (ms ++ Emission.taken (p.releaseAll b).2) :=
  h.leave haccepts (by rw [List.append_nil])

/-- Once its key is released, no note sounds with the key of an event. -/
theorem Shows.release (h : Shows most p ms) (event : Note β) :
    Shows most (p.release b event).1 (ms ++ Emission.taken (p.release b event).2) ∧
      (event.channel,event.pitch) ∉ (p.release b event).1.keys := by
  have hperm := perm_find_eraseP (sameKey event) p.active
  have hsame : ∀ n : ActiveNote β, sameKey event n = true ↔
      n.key = (event.channel,event.pitch) := by
    intro n
    simp [sameKey, ActiveNote.key, and_comm]
  refine ⟨?_,?_⟩
  · have hleave := h.leave haccepts hperm
    rwa [← Option.toList_map] at hleave
  · intro hmem
    obtain ⟨n,hn,hkey⟩ := List.mem_map.mp hmem
    -- the note that was released had the same key, and no key is down twice
    have hnodup := (hperm.map ActiveNote.key).nodup h.orderly.nodup
    cases hfind : p.active.find? (sameKey event) with
    | none =>
      have hnone := List.find?_eq_none.mp hfind n (List.mem_of_mem_eraseP hn)
      exact hnone ((hsame n).mpr hkey)
    | some released =>
      rw [hfind, Option.toList_some, List.singleton_append, List.map_cons] at hnodup
      have hreleased := (hsame released).mp (List.find?_some hfind)
      rw [hreleased, ← hkey] at hnodup
      exact (List.nodup_cons.mp hnodup).1 (List.mem_map_of_mem hn)

/-- A note that is pressed counts as sounding, and one that has to make room is lifted. -/
theorem Shows.push (h : Shows most p ms) (hmost : 0 < most) (n : ActiveNote β)
    (hkey : n.key ∉ p.keys) (velocity : Nat) :
    Shows most (p.push b n).1
      (ms ++ .noteOn n.channel n.pitch velocity :: Emission.taken (p.push b n).2) := by
  have hpressed : Message.Orderly (ms ++ [.noteOn n.channel n.pitch velocity])
      (p.keys ++ [n.key]) := h.orderly.press hkey velocity
  rw [List.append_cons]
  unfold Player.push
  split
  · next hlt =>
    refine ⟨?_,h.capacity,?_⟩
    · simpa [Emission.taken, keys] using hpressed
    · rw [h.capacity] at hlt
      simpa [Nat.succ_le_iff] using hlt
  · next hfull =>
    rw [h.capacity] at hfull
    cases hactive : p.active with
    | nil =>
      rw [hactive] at hfull
      exact absurd hmost hfull
    | cons oldest rest =>
      have htaken : Emission.taken [.crowded oldest.pitch, off b oldest] =
          Emission.taken ([oldest].map (off b)) := rfl
      have hroom := h.room
      rw [hactive] at hroom
      rw [keys, hactive] at hpressed
      have hkeys : Message.Orderly _ ([oldest.key] ++ (rest.map ActiveNote.key ++ [n.key])) :=
        hpressed
      have hlifted := Message.Orderly.lifts hkeys
      refine ⟨?_,h.capacity,by simpa using hroom⟩
      dsimp only
      rw [htaken, taken_offs haccepts]
      simpa [keys] using hlifted

theorem Shows.start (h : Shows most p ms) :
    Shows most p (ms ++ Emission.taken (p.start b)) := by
  unfold Player.start
  generalize programs [] p.tune.orderedVoices = changes
  induction changes generalizing ms with
  | nil => simpa [Emission.taken] using h
  | cons change changes ih =>
    have hchange : Shows most p (ms ++ [.programChange change.1 change.2]) :=
      ⟨h.orderly.change change.2,h.capacity,h.room⟩
    have hrest := ih hchange
    rw [List.append_assoc] at hrest
    simpa [Emission.taken, Emission.taken?, Backend.send, haccepts] using hrest

/-! ## Calls -/

variable [Beats β]

theorem Shows.releaseUntil (h : Shows most p ms) (beat : β) :
    Shows most (p.releaseUntil b beat).1
      (ms ++ Emission.taken (p.releaseUntil b beat).2) :=
  h.leave haccepts (List.filter_append_perm (endsBy beat) p.active).symm

theorem Shows.sound (h : Shows most p ms) (hmost : 0 < most) (volume : Float32)
    (event : Note β) :
    Shows most (p.sound b volume event).1
      (ms ++ Emission.taken (p.sound b volume event).2) := by
  obtain ⟨hreleased,hkey⟩ := h.release haccepts event
  unfold Player.sound
  dsimp only
  split
  · simpa [Emission.taken] using h
  · rw [haccepts]
    have hpushed := hreleased.push haccepts hmost ⟨event.pitch,event.channel,event.stop⟩ hkey
      (dispatchVelocity event.velocity volume)
    rw [List.append_assoc] at hpushed
    simpa [Emission.taken, Emission.taken?] using hpushed

theorem Shows.step (h : Shows most p ms) (hmost : 0 < most) {volume : Float32}
    {limit : β} (hstep : p.step b volume limit = some (q,sent)) :
    Shows most q (ms ++ Emission.taken sent) := by
  rcases step_cases b volume hstep with ⟨beat,-,-,-,hq⟩ | ⟨event,rest,-,-,hq⟩
  · have hreleased := h.releaseUntil haccepts beat
    rwa [hq] at hreleased
  · have hrest : Shows most { p with upcoming := rest } ms := ⟨h.orderly,h.capacity,h.room⟩
    have hsound := hrest.sound haccepts hmost volume event
    rwa [hq] at hsound

theorem Shows.run (h : Shows most p ms) (hmost : 0 < most) {volume : Float32}
    {limit : β} {fuel : Nat} (hrun : run b volume limit fuel p = some (q,sent)) :
    Shows most q (ms ++ Emission.taken sent) := by
  induction fuel generalizing p ms sent with
  | zero => cases hrun
  | succ fuel ih =>
    rw [Player.run] at hrun
    cases hstep : p.step b volume limit with
    | none =>
      rw [hstep] at hrun
      cases hrun
      simpa [Emission.taken] using h
    | some next =>
      rw [hstep] at hrun
      obtain ⟨⟨r,more⟩,hrest,heq⟩ := Option.map_eq_some_iff.mp hrun
      cases heq
      have hnext := ih (h.step haccepts hmost hstep) hrest
      rwa [List.append_assoc, ← Emission.taken_append] at hnext

theorem Shows.advance (h : Shows most p ms) (hmost : 0 < most) {beats : β}
    {volume : Float32} (hmove : p.advance b beats volume = some (q,sent)) :
    Shows most q (ms ++ Emission.taken sent) := by
  obtain ⟨⟨r,more⟩,hrun,heq⟩ := Option.map_eq_some_iff.mp hmove
  cases heq
  have hshows := h.run haccepts hmost hrun
  exact ⟨hshows.orderly,hshows.capacity,hshows.room⟩

/-- What may be asked of a player. -/
inductive Call (β : Type) where
  | start
  | advance (beats : β) (volume : Float32)
  | releaseAll
  | rewind

/-- There is no result if playing never ends. -/
def call (b : Backend) (p : Player β) : Call β → Option (Player β × List Emission)
  | .start => some (p,p.start b)
  | .advance beats volume => p.advance b beats volume
  | .releaseAll => some (p.releaseAll b)
  | .rewind => some (p.rewind b)

/-- Calls one after another, with all that they send. -/
def calls (b : Backend) : List (Call β) → Player β → Option (Player β × List Emission)
  | [], p => some (p,[])
  | c :: rest, p =>
    (p.call b c).bind fun (p,sent) => (calls b rest p).map fun (p,more) => (p,sent ++ more)

theorem Shows.call (h : Shows most p ms) (hmost : 0 < most) {c : Call β}
    (hcall : p.call b c = some (q,sent)) : Shows most q (ms ++ Emission.taken sent) := by
  cases c with
  | start =>
    cases hcall
    exact h.start haccepts
  | advance beats volume => exact h.advance haccepts hmost hcall
  | releaseAll =>
    cases hcall
    exact h.releaseAll haccepts
  | rewind =>
    cases hcall
    have hreleased := h.releaseAll haccepts
    exact ⟨hreleased.orderly,hreleased.capacity,hreleased.room⟩

theorem Shows.calls (h : Shows most p ms) (hmost : 0 < most) {cs : List (Call β)}
    (hcalls : p.calls b cs = some (q,sent)) : Shows most q (ms ++ Emission.taken sent) := by
  induction cs generalizing p ms sent with
  | nil =>
    cases hcalls
    simpa [Emission.taken] using h
  | cons c rest ih =>
    obtain ⟨⟨r,first⟩,hcall,hrest⟩ := Option.bind_eq_some_iff.mp hcalls
    obtain ⟨⟨s,more⟩,hmore,heq⟩ := Option.map_eq_some_iff.mp hrest
    cases heq
    have hlast := ih (h.call haccepts hmost hcall) hmore
    rwa [List.append_assoc, ← Emission.taken_append] at hlast

omit haccepts

theorem shows_new (slot : Slot β) (capacity : Nat) :
    Shows (max capacity 1) (new slot capacity) [] where
  orderly := Message.orderly_nil
  capacity := rfl
  room := Nat.zero_le _

/-- Whatever a new player is asked, its list is what sounds: the keys that are down are those of
the notes on it, none of them twice, and no more of them than there is room for. Each key is
pressed and lifted in turn, so that no key is lifted which is not down. -/
theorem calls_sounding (haccepts : ∀ m, b.refusal? m = none) (slot : Slot β) (capacity : Nat)
    (cs : List (Call β)) (hcalls : (new slot capacity).calls b cs = some (p,sent)) :
    List.Perm (Message.sounding (Emission.taken sent)) p.keys ∧
      (Message.sounding (Emission.taken sent)).Nodup ∧ p.keys.Nodup ∧
        p.active.length ≤ max capacity 1 ∧
          ∀ key, List.IsChain (· ≠ ·) (false :: Message.strokes key (Emission.taken sent)) := by
  have hroom : 0 < max capacity 1 := Nat.lt_of_lt_of_le Nat.one_pos (Nat.le_max_right _ _)
  have hshows := (shows_new slot capacity).calls haccepts hroom hcalls
  rw [List.nil_append] at hshows
  exact ⟨hshows.orderly.sounding,hshows.orderly.sounding.symm.nodup hshows.orderly.nodup,
    hshows.orderly.nodup,hshows.room,hshows.orderly.inTurn⟩

/-- One key is struck twice, the second time while it is down, and then another key. -/
def overlapping (β : Type) [Beats β] : Slot β where
  id := 1
  tune :=
    { Tune.empty (.initial 1.0) with
      events :=
        [⟨60,80,0.0,2.0,0,"1",[],false,none⟩, ⟨60,80,1.0,2.0,0,"1",[],false,none⟩,
          ⟨64,80,2.0,2.0,0,"1",[],false,none⟩] }
  options := .once

/-- Where there is room for one note only, the third one takes the place of the second. -/
theorem calls_sounding_overlapping :
    ∃ p sent,
      (new (overlapping Float) 1).calls .accepting [.start, .advance 2 1, .rewind, .advance 1 1] =
          some (p,sent) ∧
        Emission.taken sent =
          [.noteOn 0 60 80, .noteOff 0 60, .noteOn 0 60 80, .noteOn 0 64 80, .noteOff 0 60,
            .noteOff 0 64, .noteOn 0 60 80, .noteOff 0 60, .noteOn 0 60 80] ∧
        List.Perm (Message.sounding (Emission.taken sent)) p.keys ∧ p.keys.Nodup ∧
        p.active.length ≤ 1 ∧
        ∀ key, List.IsChain (· ≠ ·) (false :: Message.strokes key (Emission.taken sent)) := by
  have hevaluated :
      ((new (overlapping Float) 1).calls .accepting
          [.start, .advance 2 1, .rewind, .advance 1 1]).map (fun result => Emission.taken result.2) =
        some [.noteOn 0 60 80, .noteOff 0 60, .noteOn 0 60 80, .noteOn 0 64 80, .noteOff 0 60,
            .noteOff 0 64, .noteOn 0 60 80, .noteOff 0 60, .noteOn 0 60 80] := by
    decide +kernel
  obtain ⟨⟨p,sent⟩,hcalls,htaken⟩ := Option.map_eq_some_iff.mp hevaluated
  obtain ⟨hperm,-,hnodup,hroom,hturn⟩ :=
    calls_sounding (fun _ => rfl) (overlapping Float) 1 _ hcalls
  exact ⟨p,sent,hcalls,htaken,hperm,hnodup,hroom,hturn⟩

end Player
end AbcTune
