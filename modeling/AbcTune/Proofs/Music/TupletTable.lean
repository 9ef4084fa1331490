import Mathlib.Data.List.Forall2
import AbcTune.Proofs.Music.InRange
import AbcTune.Proofs.Token.Slices

/-! # Tuplets by index

The stack of open tuplets is kept as a table of all groups of the line with the places of those
that are still open. Look-ups in the table could fail, yet along every run they find the groups of
the stack. With this every place that reading keeps is in range, but for those of an open chord.
-/
namespace AbcTune

/-- The groups of a line in the order in which they were opened, and the places of those that are
open, innermost first. -/
structure TupletTable where
  groups : List Tuplet
  opened : List Nat
  deriving DecidableEq, Repr

namespace TupletTable

def empty : TupletTable := ⟨[],[]⟩

def add (t : TupletTable) (tuplet : Tuplet) : TupletTable :=
  ⟨t.groups ++ [tuplet],t.groups.length :: t.opened⟩

/-- Counts a note for the innermost of the open groups, and goes on with the group around it if
that finishes it. A look-up out of range fails. -/
def countFrom? (groups : List Tuplet) : List Nat → Option TupletTable
  | [] => some ⟨groups,[]⟩
  | i :: outer => do
    let t ← groups[i]?
    let groups := groups.set i { t with remaining := t.remaining - 1 }
    if t.remaining ≤ 1 then countFrom? groups outer else some ⟨groups,i :: outer⟩

def count? (t : TupletTable) : Option TupletTable := countFrom? t.groups t.opened

/-- The open groups, each by a look-up that may fail. -/
def stack? (t : TupletTable) : Option (List Tuplet) := t.opened.mapM (t.groups[·]?)

/-- Look-ups at places find the groups of a stack, and no two places are the same. -/
structure Finds (groups : List Tuplet) (opened : List Nat) (stack : List Tuplet) : Prop where
  nodup : opened.Nodup
  found : List.Forall₂ (fun i tuplet => groups[i]? = some tuplet) opened stack

/-- The open groups of a table are those of a stack. -/
abbrev Shows (t : TupletTable) (stack : List Tuplet) : Prop := Finds t.groups t.opened stack

variable {groups : List Tuplet} {opened : List Nat} {stack : List Tuplet} {t : TupletTable}

theorem finds_nil (groups : List Tuplet) : Finds groups [] [] := ⟨List.nodup_nil,.nil⟩

theorem Finds.lt (h : Finds groups opened stack) : ∀ i ∈ opened, i < groups.length := by
  obtain ⟨-,hfound⟩ := h
  induction hfound with
  | nil => exact fun _ hi => absurd hi List.not_mem_nil
  | cons hfirst _ ih => exact List.forall_mem_cons.mpr ⟨(List.getElem?_eq_some_iff.mp hfirst).1,ih⟩

theorem Finds.mapM (h : Finds groups opened stack) :
    opened.mapM (groups[·]?) = some stack := by
  obtain ⟨-,hfound⟩ := h
  induction hfound with
  | nil => rfl
  | cons hfirst _ ih => simp [List.mapM_cons, hfirst, ih]

/-- The group around which another is opened keeps its place. -/
theorem Shows.add (h : t.Shows stack) (tuplet : Tuplet) : (t.add tuplet).Shows (tuplet :: stack) := by
  have hnew : t.groups.length ∉ t.opened := fun hmem => Nat.lt_irrefl _ (h.lt _ hmem)
  refine ⟨List.nodup_cons.mpr ⟨hnew,h.nodup⟩,.cons List.getElem?_concat_length ?_⟩
  refine h.found.imp fun i other hi => ?_
  exact (List.getElem?_append_left (List.getElem?_eq_some_iff.mp hi).1).trans hi

/-- What is counted for one group changes nothing at the places of the others. -/
theorem Finds.set (h : Finds groups opened stack) {i : Nat} (hi : i ∉ opened) (tuplet : Tuplet) :
    Finds (groups.set i tuplet) opened stack := by
  refine ⟨h.nodup,?_⟩
  obtain ⟨-,hfound⟩ := h
  induction hfound with
  | nil => exact .nil
  | cons hfirst _ ih =>
    obtain ⟨hne,hrest⟩ := List.ne_and_not_mem_of_not_mem_cons hi
    exact .cons ((List.getElem?_set_ne hne).trans hfirst) (ih hrest)

theorem Finds.countFrom? (h : Finds groups opened stack) :
    ∃ u, countFrom? groups opened = some u ∧ u.Shows (Tuplet.countNote stack) := by
  induction opened generalizing groups stack with
  | nil =>
    obtain ⟨-,⟨⟩⟩ := h
    exact ⟨_,rfl,finds_nil groups⟩
  | cons i outer ih =>
    obtain ⟨hnodup,hfound⟩ := h
    obtain ⟨hi,hnodup⟩ := List.nodup_cons.mp hnodup
    cases hfound with
    | cons hfirst hrest =>
      rename_i tuplet stack
      have hset := Finds.set ⟨hnodup,hrest⟩ hi { tuplet with remaining := tuplet.remaining - 1 }
      rw [TupletTable.countFrom?, hfirst, Tuplet.countNote]
      by_cases hlast : tuplet.remaining ≤ 1
      · simp only [Option.bind_eq_bind, Option.bind_some, if_pos hlast]
        exact ih hset
      · simp only [Option.bind_eq_bind, Option.bind_some, if_neg hlast]
        refine ⟨_,rfl,List.nodup_cons.mpr ⟨hi,hnodup⟩,.cons ?_ hset.found⟩
        exact List.getElem?_set_self (List.getElem?_eq_some_iff.mp hfirst).1

/-! ## Along a run -/

variable {β : Type} [Beats β] {s : MusicState β}

/-- The table behind a move of a state. -/
def follow? (t : TupletTable) (s : MusicState β) : MusicMove β → Option TupletTable
  | .token token context =>
    if s.counts token then t.count?
    else
      match MusicState.opened? token context with
      | some tuplet => some (t.add tuplet)
      | none => some t
  | .endLine => some .empty
  | .startPart _ | .voices _ => some t

/-- The table behind the moves of a run, unless a look-up fails. -/
def run? (t : TupletTable) (s : MusicState β) : List (MusicMove β) → Option TupletTable
  | [] => some t
  | m :: rest => do
    let t ← t.follow? s m
    match s.move m with
    | .ok s => t.run? s rest
    | .error _ => some t

theorem Shows.follow? (h : t.Shows s.tuplets) (hs : s.InRange) {m : MusicMove β}
    {s' : MusicState β} (hm : s.move m = .ok s') :
    ∃ u, t.follow? s m = some u ∧ u.Shows s'.tuplets := by
  cases m with
  | token token context =>
    obtain ⟨⟨s',problem⟩,hok,rfl⟩ := exists_of_map_ok hm
    obtain ⟨-,htuplets,-⟩ := hs.of_handle hok
    rw [htuplets, MusicState.tupletsBehind, TupletTable.follow?]
    by_cases hcounts : s.counts token = true
    · rw [if_pos hcounts, if_pos hcounts]
      exact h.countFrom?
    · rw [if_neg hcounts, if_neg hcounts]
      cases MusicState.opened? token context with
      | none => exact ⟨t,rfl,h⟩
      | some tuplet => exact ⟨t.add tuplet,rfl,h.add tuplet⟩
  | endLine => exact ⟨.empty,rfl,Except.ok.inj hm ▸ finds_nil []⟩
  | startPart label => exact ⟨t,rfl,Except.ok.inj hm ▸ h⟩
  | voices operation => exact ⟨t,rfl,Except.ok.inj hm ▸ h⟩

theorem Shows.isSome_follow? (h : t.Shows s.tuplets) (m : MusicMove β) :
    (t.follow? s m).isSome := by
  cases m with
  | token token context =>
    rw [TupletTable.follow?]
    by_cases hcounts : s.counts token = true
    · obtain ⟨u,hu,-⟩ := h.countFrom?
      rw [if_pos hcounts, count?, hu]
      rfl
    · rw [if_neg hcounts]
      cases MusicState.opened? token context <;> rfl
  | endLine | startPart | voices => rfl

theorem Shows.run? (h : t.Shows s.tuplets) (hs : s.InRange) {moves : List (MusicMove β)}
    {s' : MusicState β} (hrun : s.run moves = .ok s') :
    ∃ u, t.run? s moves = some u ∧ u.Shows s'.tuplets := by
  induction moves generalizing s t with
  | nil => exact ⟨t,rfl,Except.ok.inj hrun ▸ h⟩
  | cons m rest ih =>
    obtain ⟨s₁,hm,hrun⟩ := exists_of_bind_ok hrun
    obtain ⟨t₁,ht,hshows⟩ := h.follow? hs hm
    obtain ⟨u,hu,hlast⟩ := ih hshows (hs.move hm) hrun
    refine ⟨u,?_,hlast⟩
    rw [TupletTable.run?, ht]
    simp only [Option.bind_eq_bind, Option.bind_some, hm]
    exact hu

end TupletTable

namespace MusicState

variable {β : Type} [Beats β]

/-- Along every run the places that are remembered of a voice are those of notes that it has, the
look-ups in the table of tuplets find the open ones, before the next token and for it, and the
texts that the lexer gives out can be cut. So a token fails only if it is the end of the open
chord, with a length that can be read, and the voice that is active then is too short for one of
the places of the chord. -/
theorem run_inRange {moves : List (MusicMove β)} {s : MusicState β}
    (hrun : initial.run moves = .ok s) :
    (∀ id, ∀ i ∈ (s.memory id).lastGroup ++ (s.memory id).tiedFrom,
      ∃ v, s.voices.find? id = some v ∧ i < v.notes.length) ∧
    (∃ table, TupletTable.empty.run? initial moves = some table ∧
      (∀ i ∈ table.opened, i < table.groups.length) ∧ table.stack? = some s.tuplets ∧
      ∀ m, (table.follow? s m).isSome) ∧
    (∀ line number, ∀ token ∈ Token.tokenize line number, Token.IsCut token.kind token.text) ∧
    ∀ token context, (∃ fault, s.handle token context = .error fault) ↔
      token.kind = .chordEnd ∧ (readLength? (β := β) (token.text.drop 1)).isSome ∧
        ∃ chord v, s.chord = some chord ∧
          s.voices.ensureActive.find? s.voices.noteVoice = some v ∧
          ∃ i ∈ chord.notes, v.notes.length ≤ i := by
  have hrange : s.InRange := inRange_initial.run hrun
  have hempty : TupletTable.empty.Shows (initial : MusicState β).tuplets := TupletTable.finds_nil []
  obtain ⟨table,htable,hshows⟩ := hempty.run? inRange_initial hrun
  refine ⟨fun id i hi => ?_,⟨table,htable,hshows.lt,hshows.mapM,fun m => ?_⟩,
    fun line number token htoken => Token.isCut_of_mem_tokenize htoken,
    fun token context => hrange.handle_eq_error_iff token context⟩
  · apply VoiceTable.exists_of_lt_notesOf
    rcases List.mem_append.mp hi with hi | hi
    · exact hrange.lastGroup id i hi
    · exact hrange.tiedFrom id i hi
  · exact hshows.isSome_follow? m

/-- A chord of the first voice is closed in a second one without notes, inside a tuplet. -/
theorem run_inRange_elsewhere :
    ∃ (moves : List (MusicMove Rat)) (s : MusicState Rat), initial.run moves = .ok s ∧
      (s.memory "1").lastGroup = [0] ∧ s.tuplets = [⟨3,2,2⟩] ∧
      ∃ fault, s.handle ⟨.chordEnd,"]2".toList,1,1,[]⟩ .initial = .error fault := by
  let music (kind : TokenKind) (text : String) : MusicMove Rat :=
    .token ⟨kind,text.toList,1,1,[]⟩ .initial
  let moves : List (MusicMove Rat) := [music .tuplet "(3",music .note "C",music .chordStart "[",
    music .note "E",.voices (.switchTo "2")]
  have hrun : ((initial.run moves).toOption.map fun s => (s.tuplets,(s.memory "1").lastGroup,
      s.chord.map (·.notes),
      (s.voices.ensureActive.find? s.voices.noteVoice).map (·.notes.length))) =
      some ([⟨3,2,2⟩],[0],some [1],some 0) := by decide +kernel
  obtain ⟨s,hs,hvalue⟩ := exists_of_toOption_map hrun
  obtain ⟨htuplets,hvalue⟩ := Prod.mk.inj hvalue
  obtain ⟨hlast,hvalue⟩ := Prod.mk.inj hvalue
  obtain ⟨hchord,hvoice⟩ := Prod.mk.inj hvalue
  obtain ⟨chord,hchord,hnotes⟩ := Option.map_eq_some_iff.mp hchord
  obtain ⟨v,hv,hlength⟩ := Option.map_eq_some_iff.mp hvoice
  obtain ⟨-,-,-,hfault⟩ := run_inRange hs
  refine ⟨moves,s,hs,hlast,htuplets,(hfault _ _).mpr ⟨rfl,by decide +kernel,chord,v,hchord,hv,1,?_,?_⟩⟩
  · simp [hnotes]
  · omega

end MusicState
end AbcTune
