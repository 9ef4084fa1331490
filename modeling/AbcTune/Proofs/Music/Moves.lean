import AbcTune.Music.Reading
import AbcTune.Proofs.Voice.Clocks

/-! # Runs of reading music

While a tune is read its state of reading sees tokens, ends of lines and starts of parts, and
between them voices are defined, switched to and brought together. A run is any sequence of these.
-/
namespace AbcTune

inductive MusicMove (β : Type) where
  | token (token : Token) (context : MusicContext β)
  | endLine
  | startPart (label : Char)
  | voices (operation : VoiceTable.Operation β)

namespace MusicState

variable {β : Type} [Beats β] {s t : MusicState β}

def move (s : MusicState β) : MusicMove β → Except Fault (MusicState β)
  | .token token context => (s.handle token context).map (·.1)
  | .endLine => .ok s.endLine
  | .startPart label => .ok (s.startPart label)
  | .voices operation => .ok { s with voices := s.voices.apply operation }

def run (s : MusicState β) : List (MusicMove β) → Except Fault (MusicState β)
  | [] => .ok s
  | m :: rest => do
    let s ← s.move m
    s.run rest

theorem exists_of_run_append {moves more : List (MusicMove β)}
    (hrun : s.run (moves ++ more) = .ok t) :
    ∃ u, s.run moves = .ok u ∧ u.run more = .ok t := by
  induction moves generalizing s with
  | nil => exact ⟨s,rfl,hrun⟩
  | cons m rest ih =>
    obtain ⟨v,hv,hrun⟩ := exists_of_bind_ok hrun
    obtain ⟨u,hu,hmore⟩ := ih hrun
    exact ⟨u,by rw [run, hv, ok_bind, hu],hmore⟩

theorem run_append {moves : List (MusicMove β)} (hrun : s.run moves = .ok t)
    (more : List (MusicMove β)) : s.run (moves ++ more) = t.run more := by
  induction moves generalizing s with
  | nil => exact Except.ok.inj hrun ▸ rfl
  | cons m rest ih =>
    obtain ⟨u,hu,hrun⟩ := exists_of_bind_ok hrun
    rw [List.cons_append, run, hu, ok_bind, ih hrun]

/-- What each move keeps holds at the end of a run. -/
theorem run_induction {P : MusicState β → Prop} {moves : List (MusicMove β)} (hs : P s)
    (hstep : ∀ s t m, P s → s.move m = .ok t → P t) (hrun : s.run moves = .ok t) : P t := by
  induction moves generalizing s with
  | nil => exact Except.ok.inj hrun ▸ hs
  | cons m rest ih =>
    obtain ⟨u,hu,hrun⟩ := exists_of_bind_ok hrun
    exact ih (hstep s u m hs hu) hrun

/-- Something holds of each move of a run and the state that it is made in. -/
def Along (P : MusicState β → MusicMove β → Prop) (s : MusicState β) :
    List (MusicMove β) → Prop
  | [] => True
  | m :: rest => P s m ∧ ∀ t, s.move m = .ok t → t.Along P rest

variable {P Q : MusicState β → MusicMove β → Prop} {I : MusicState β → Prop}
  {moves : List (MusicMove β)}

theorem along_of_forall {P : MusicMove β → Prop} (h : ∀ m ∈ moves, P m) :
    s.Along (fun _ m => P m) moves := by
  induction moves generalizing s with
  | nil => trivial
  | cons m rest ih =>
    obtain ⟨hm,hrest⟩ := List.forall_mem_cons.mp h
    exact ⟨hm,fun t _ => ih hrest⟩

theorem Along.and (h : s.Along P moves) (h' : s.Along Q moves) :
    s.Along (fun s m => P s m ∧ Q s m) moves := by
  induction moves generalizing s with
  | nil => trivial
  | cons m rest ih => exact ⟨⟨h.1,h'.1⟩,fun t ht => ih (h.2 t ht) (h'.2 t ht)⟩

theorem along_append {more : List (MusicMove β)} :
    s.Along P (moves ++ more) ↔ s.Along P moves ∧ ∀ t, s.run moves = .ok t → t.Along P more := by
  induction moves generalizing s with
  | nil => exact ⟨fun h => ⟨trivial,fun t ht => Except.ok.inj ht ▸ h⟩,fun h => h.2 s rfl⟩
  | cons m rest ih =>
    constructor
    · rintro ⟨hm,hrest⟩
      refine ⟨⟨hm,fun t ht => (ih.mp (hrest t ht)).1⟩,fun t ht => ?_⟩
      obtain ⟨u,hu,hrun⟩ := exists_of_bind_ok ht
      exact (ih.mp (hrest u hu)).2 t hrun
    · rintro ⟨⟨hm,hrest⟩,hmore⟩
      refine ⟨hm,fun t ht => ih.mpr ⟨hrest t ht,fun u hu => hmore u ?_⟩⟩
      rw [run, ht, ok_bind, hu]

/-- A run can be gone along to see whether something holds at each of its moves. -/
instance Along.decidable [∀ s m, Decidable (P s m)] :
    (s : MusicState β) → (moves : List (MusicMove β)) → Decidable (s.Along P moves)
  | _, [] => .isTrue trivial
  | s, m :: rest =>
    have : Decidable (∀ t, s.move m = .ok t → t.Along P rest) :=
      match s.move m with
      | .ok t =>
        have := Along.decidable t rest
        decidable_of_iff (t.Along P rest)
          ⟨fun h _ hu => Except.ok.inj hu ▸ h,fun h => h t rfl⟩
      | .error _ => .isTrue nofun
    inferInstanceAs (Decidable (P s m ∧ ∀ t, s.move m = .ok t → t.Along P rest))

/-- Along a run an invariant may be used for each of its moves. -/
theorem Along.imp (h : s.Along P moves) (hs : I s)
    (hstep : ∀ s t m, I s → P s m → s.move m = .ok t → I t)
    (himp : ∀ s m, I s → P s m → Q s m) : s.Along Q moves := by
  induction moves generalizing s with
  | nil => trivial
  | cons m rest ih => exact ⟨himp s m hs h.1,fun t ht => ih (h.2 t ht) (hstep s t m hs h.1 ht)⟩

/-- An invariant that is kept by moves of one kind holds at the end of a run of such moves. -/
theorem Along.induction (h : s.Along P moves) (hs : I s)
    (hstep : ∀ s t m, I s → P s m → s.move m = .ok t → I t) (hrun : s.run moves = .ok t) :
    I t := by
  induction moves generalizing s with
  | nil => exact Except.ok.inj hrun ▸ hs
  | cons m rest ih =>
    obtain ⟨u,hu,hrun⟩ := exists_of_bind_ok hrun
    exact ih (h.2 u hu) (hstep s u m hs h.1 hu) hrun

end MusicState
end AbcTune
