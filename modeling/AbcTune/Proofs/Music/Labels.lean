import AbcTune.Proofs.Music.OneVoice
import AbcTune.Proofs.Voice.Each

/-! # The parts of notes

A note keeps the part that it was placed in, whatever becomes of its length and its start. So what
holds of the part under way whenever a note is placed holds of the parts of all notes.
-/
namespace AbcTune

section Notes

variable {β : Type} {Q : Option Char → Prop} {v w : Voice β} {f : Note β → Note β}

def InParts (Q : Option Char → Prop) (notes : List (Note β)) : Prop := ∀ n ∈ notes, Q n.part

theorem inParts_nil : InParts Q ([] : List (Note β)) := fun _ hn => absurd hn List.not_mem_nil

namespace Voice

theorem inParts_addNote (h : InParts Q v.notes) {n : Note β} (hn : Q n.part) :
    InParts Q (v.addNote n).notes := by
  intro m hm
  rcases List.mem_append.mp hm with hm | hm
  · exact h m hm
  · rw [List.mem_singleton.mp hm]
    exact hn

theorem inParts_modifyNote (h : InParts Q v.notes) {i : Nat} (hw : v.modifyNote f i = .ok w)
    (hf : ∀ n, (f n).part = n.part) : w.id = v.id ∧ InParts Q w.notes := by
  unfold modifyNote at hw
  split at hw
  · cases hw
  · next n hn =>
    obtain rfl := Except.ok.inj hw
    refine ⟨rfl,?_⟩
    intro m hm
    rcases List.mem_or_eq_of_mem_set hm with hm | rfl
    · exact h m hm
    · rw [hf]
      exact h n (List.mem_of_getElem? hn)

theorem inParts_modifyNotes (h : InParts Q v.notes) {places : List Nat}
    (hw : v.modifyNotes f places = .ok w) (hf : ∀ n, (f n).part = n.part) :
    w.id = v.id ∧ InParts Q w.notes := by
  induction places generalizing v with
  | nil =>
    obtain rfl := Except.ok.inj hw
    exact ⟨rfl,h⟩
  | cons i rest ih =>
    unfold modifyNotes at hw
    split at hw
    · cases hw
    · next u hu =>
      obtain ⟨hid,hnotes⟩ := inParts_modifyNote h hu hf
      obtain ⟨hid',hnotes'⟩ := ih hnotes hw
      exact ⟨hid'.trans hid,hnotes'⟩

end Voice
end Notes

section Placing

variable {β : Type} [Beats β] {Q : Option Char → Prop} {v w : Voice β} {part : Option Char}

theorem inParts_addGraces (h : InParts Q v.notes) (hpart : Q part) (velocity : Int) (factor : β)
    (graces : List (Grace β)) (time : β) :
    (addGraces v velocity factor part graces time).1.id = v.id ∧
      InParts Q (addGraces v velocity factor part graces time).1.notes := by
  induction graces generalizing v time with
  | nil => exact ⟨rfl,h⟩
  | cons g rest ih => exact ih (Voice.inParts_addNote h hpart) _

theorem inParts_placeGraces (h : InParts Q v.notes) (hpart : Q part) (velocity : Int)
    (graces : List (Grace β)) (start principal : β) :
    (placeGraces v velocity graces start principal part).1.id = v.id ∧
      InParts Q (placeGraces v velocity graces start principal part).1.notes := by
  unfold placeGraces
  dsimp only
  split
  · exact ⟨rfl,h⟩
  · exact inParts_addGraces h hpart velocity _ graces start

theorem inParts_place (h : InParts Q v.notes) (hpart : Q part) {m m' : VoiceMemory β}
    {p : Placement β} {i : Nat} (hw : place v m p part = .ok (w,m',i)) :
    w.id = v.id ∧ InParts Q w.notes := by
  unfold place at hw
  obtain ⟨tied,-,hw⟩ := exists_of_bind_ok hw
  split at hw
  · obtain ⟨u,hu,hw⟩ := exists_of_bind_ok hw
    cases hw
    exact Voice.inParts_modifyNote h hu fun _ => rfl
  · cases hw
    exact ⟨rfl,Voice.inParts_addNote h hpart⟩

theorem MusicState.inParts_finishChord (h : InParts Q v.notes) (hpart : Q part) {velocity : Int}
    {chord : OpenChord β} {multiplier advance : β}
    (hw : finishChord v velocity chord multiplier advance part = .ok w) :
    w.id = v.id ∧ InParts Q w.notes := by
  unfold finishChord at hw
  obtain ⟨u,hu,hw⟩ := exists_of_bind_ok hw
  obtain ⟨hid,hnotes⟩ := Voice.inParts_modifyNotes h hu fun _ => rfl
  split at hw
  · cases hw
    exact ⟨hid,hnotes⟩
  · obtain ⟨hid',hnotes'⟩ :=
      inParts_placeGraces hnotes hpart velocity chord.graces chord.start advance
    obtain ⟨hid'',hnotes''⟩ := Voice.inParts_modifyNotes hnotes' hw fun _ => rfl
    exact ⟨hid''.trans (hid'.trans hid),hnotes''⟩

end Placing

namespace MusicState

section States

variable {β : Type} {Q R : Option Char → Prop} {s : MusicState β} {w : Voice β}

/-- Something holds of the part under way and of those of all notes. -/
structure Marked (Q : Option Char → Prop) (s : MusicState β) : Prop where
  notes : s.voices.EachNotes (InParts Q)
  part : Q s.part

/-- It goes on to hold where a token is handled. -/
def Marks (Q : Option Char → Prop) (r : Except Fault (Handled β)) : Prop :=
  ∀ s problem, r = .ok (s,problem) → s.Marked Q

theorem Marked.imp (h : s.Marked Q) (himp : ∀ part, Q part → R part) : s.Marked R :=
  ⟨h.notes.imp fun _ hv n hn => himp n.part (hv n hn),himp s.part h.part⟩

theorem Marked.accept (h : s.Marked Q) : Marks Q s.accept := by
  intro t problem ht
  cases ht
  exact h

theorem Marked.reject (h : s.Marked Q) (p : MusicProblem) : Marks Q (s.reject p) := by
  intro t problem ht
  cases ht
  exact h

theorem Marks.bind {α : Type} {x : Except Fault α} {f : α → Except Fault (Handled β)}
    (h : ∀ a, x = .ok a → Marks Q (f a)) : Marks Q (x >>= f) := by
  intro t problem ht
  obtain ⟨a,hx,ha⟩ := exists_of_bind_ok ht
  exact h a hx t problem ha

theorem Marked.setVoice (h : s.Marked Q) (hw : InParts Q w.notes) : (s.setVoice w).Marked Q :=
  ⟨VoiceTable.Each.modify h.notes (fun _ => w) (fun _ _ => rfl) fun _ _ => hw,h.part⟩

theorem Marked.setMemory (h : s.Marked Q) (id : String) (m : VoiceMemory β) :
    (s.setMemory id m).Marked Q := ⟨h.notes,h.part⟩

theorem Marked.find? (h : s.Marked Q) {id : String} (hw : s.voices.find? id = some w) :
    InParts Q w.notes :=
  h.notes.voices w (List.mem_of_find?_eq_some hw)

end States

/-! ## Tokens -/

section Tokens

variable {β : Type} [Beats β] {Q : Option Char → Prop} {s : MusicState β} {v : Voice β}

theorem marked_initial (h : Q none) : (initial : MusicState β).Marked Q :=
  ⟨VoiceTable.each_empty,h⟩

theorem Marked.ensureActive (h : s.Marked Q) :
    { s with voices := s.voices.ensureActive }.Marked Q :=
  ⟨h.notes.ensureActive inParts_nil,h.part⟩

theorem Marked.advance (h : s.Marked Q) (beats : β) :
    { s with voices := s.voices.advance beats }.Marked Q :=
  ⟨⟨h.notes.order,h.notes.voices⟩,h.part⟩

theorem Marked.addToChord (h : s.Marked Q) (hv : InParts Q v.notes) (chord : OpenChord β)
    (written : Int) (nominal : β) : Marks Q (s.addToChord chord v written nominal) := by
  unfold MusicState.addToChord
  apply Marks.bind
  rintro ⟨w,m,i⟩ hw
  obtain ⟨-,hnotes⟩ := inParts_place hv h.part hw
  exact Marked.accept ⟨(h.setVoice hnotes).notes,h.part⟩

theorem Marked.addSingle (h : s.Marked Q) (hv : InParts Q v.notes) (written : Int)
    (nominal : β) : Marks Q (s.addSingle v written nominal) := by
  unfold MusicState.addSingle
  dsimp only
  generalize nominal * (s.memory v.id).brokenNext.getD 1.0 * Tuplet.scaleAll s.tuplets = advance
  obtain ⟨-,hgraces⟩ := inParts_placeGraces hv h.part (s.memory v.id).velocity
    (s.memory v.id).graces s.voices.cursor advance
  apply Marks.bind
  rintro ⟨w,m,i⟩ hw
  obtain ⟨-,hnotes⟩ := inParts_place hgraces h.part hw
  exact Marked.accept ⟨((h.setVoice hnotes).advance advance).notes,h.part⟩

theorem Marked.note (h : s.Marked Q) (text : Text) (context : MusicContext β) :
    Marks Q (s.note text context) := by
  unfold MusicState.note
  split
  · exact h.reject _
  · dsimp only
    split
    · exact Marked.accept ⟨h.ensureActive.notes,h.part⟩
    · have hmarked := h.ensureActive
      split
      · exact Marked.accept ⟨hmarked.notes,h.part⟩
      · next v chord hv hchord =>
        exact (hmarked.setMemory _ _).addToChord (hmarked.find? hv) _ _ _
      · next v hv hchord =>
        exact (hmarked.setMemory _ _).addSingle (hmarked.find? hv) _ _

theorem Marked.mapMemory (h : s.Marked Q) (id : String) (f : VoiceMemory β → VoiceMemory β) :
    (s.mapMemory id f).Marked Q := ⟨h.notes,h.part⟩

theorem Marked.rest (h : s.Marked Q) (text : Text) (context : MusicContext β) :
    Marks Q (s.rest text context) := by
  unfold MusicState.rest
  split
  · exact h.reject _
  · split
    · exact h.reject _
    · exact Marked.accept ⟨(h.ensureActive.advance _).notes,h.part⟩

theorem Marked.multiRest (h : s.Marked Q) (text : Text) (context : MusicContext β) :
    Marks Q (s.multiRest text context) := by
  unfold MusicState.multiRest
  split
  · exact h.reject _
  · exact ((h.ensureActive.mapMemory _ _).advance _).accept

theorem Marked.barLine (h : s.Marked Q) : Marks Q s.barLine := by
  unfold MusicState.barLine
  split
  · exact h.accept
  · exact (h.mapMemory _ _).accept

omit [Beats β] in
theorem Marked.openGrace (h : s.Marked Q) : Marks Q s.openGrace := by
  unfold MusicState.openGrace
  split
  · exact h.reject _
  · exact Marked.accept ⟨h.notes,h.part⟩

theorem Marked.closeGrace (h : s.Marked Q) : Marks Q s.closeGrace := by
  unfold MusicState.closeGrace
  split
  · exact h.reject _
  · exact Marked.accept ⟨h.ensureActive.notes,h.part⟩

omit [Beats β] in
theorem Marked.openTuplet (h : s.Marked Q) (text : Text) (context : MusicContext β) :
    Marks Q (s.openTuplet text context) := by
  unfold MusicState.openTuplet
  split
  · exact h.reject _
  · split
    · exact Marked.accept ⟨h.notes,h.part⟩
    · exact h.accept

theorem Marked.openChord (h : s.Marked Q) : Marks Q s.openChord := by
  unfold MusicState.openChord
  split
  · exact h.reject _
  · split
    · exact h.reject _
    · exact Marked.accept ⟨h.ensureActive.notes,h.part⟩

theorem Marked.closeChord (h : s.Marked Q) (text : Text) : Marks Q (s.closeChord text) := by
  unfold MusicState.closeChord
  split
  · exact h.reject _
  · next chord _ =>
    dsimp only
    have hmarked : { s with chord := none, voices := s.voices.ensureActive }.Marked Q :=
      ⟨h.ensureActive.notes,h.part⟩
    split
    · apply Marked.reject
      exact ⟨h.notes,h.part⟩
    · split
      · exact Marked.accept ⟨(hmarked.advance _).notes,h.part⟩
      · next v hv =>
        apply Marks.bind
        intro w hw
        obtain ⟨-,hnotes⟩ := inParts_finishChord (hmarked.find? hv) h.part hw
        exact Marked.accept ⟨((hmarked.setVoice hnotes).advance _).notes,h.part⟩

theorem Marked.brokenRhythm (h : s.Marked Q) (text : Text) : Marks Q (s.brokenRhythm text) := by
  unfold MusicState.brokenRhythm
  split
  · exact h.reject _
  · dsimp only
    split
    · exact h.reject _
    · split
      · exact Marked.accept ⟨(h.advance _).notes,h.part⟩
      · next v hv =>
        apply Marks.bind
        intro w hw
        obtain ⟨-,hnotes⟩ := Voice.inParts_modifyNotes (h.find? hv) hw fun _ => rfl
        exact Marked.accept ⟨((h.setVoice hnotes).advance _).notes,h.part⟩

theorem Marked.namedDecoration (h : s.Marked Q) (text : Text) :
    Marks Q (s.namedDecoration text) := by
  unfold MusicState.namedDecoration
  dsimp only
  split
  · exact (h.ensureActive.mapMemory _ _).accept
  · split
    · exact (h.ensureActive.mapMemory _ _).accept
    · exact h.ensureActive.reject _
  · exact Marked.accept ⟨h.notes,h.part⟩

theorem Marked.handle (h : s.Marked Q) (token : Token) (context : MusicContext β) :
    Marks Q (s.handle token context) := by
  unfold MusicState.handle
  split
  · exact h.note _ context
  · exact h.rest _ context
  · exact h.multiRest _ context
  · exact h.barLine
  · exact h.barLine
  · exact h.barLine
  · exact h.barLine
  · exact h.barLine
  · exact h.openChord
  · exact h.closeChord _
  · exact h.openGrace
  · exact h.closeGrace
  · exact h.openTuplet _ context
  · exact (h.ensureActive.mapMemory _ _).accept
  · exact h.brokenRhythm _
  · exact Marked.accept ⟨h.notes,h.part⟩
  · exact h.namedDecoration _
  · exact h.reject _
  · exact h.accept

end Tokens
end MusicState
end AbcTune
