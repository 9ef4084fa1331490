import AbcTune.Proofs.Music.Melody
import AbcTune.Proofs.Music.NestedTuplets

/-! # Music with and without its grace notes

A grace group that is closed again has come to nothing but grace notes that wait and accidentals
that stay. So music takes the same time and meets with the same problems if grace groups are left
out of it, and it has the same melody if their notes bring no accidentals. This needs the notes of
an open chord to be where it is closed, for with an accidental a grace note may decide whether a
later note is tied, and so how many notes there are.
-/
namespace AbcTune

/-- A grace group: its braces and the notes between them. -/
structure GraceGroup (β : Type) where
  opening : Sign β
  notes : List (Sign β)
  closing : Sign β
  opens : opening.token.kind = .graceStart
  written : ∀ x ∈ notes, x.token.kind = .note
  closes : closing.token.kind = .graceEnd

/-- Music in its order, with grace groups that may be left out. -/
inductive Piece (β : Type) where
  | sign (x : Sign β)
  | graces (g : GraceGroup β)

section Groups

variable {β : Type}

def Sign.move (x : Sign β) : MusicMove β := .token x.token x.context

def GraceGroup.signs (g : GraceGroup β) : List (Sign β) := g.opening :: (g.notes ++ [g.closing])

/-- A group is without effect if its notes are, once it has been opened. -/
theorem GraceGroup.foldl_signs {σ : Type} {f : σ → Sign β → σ} {o opened : σ} (g : GraceGroup β)
    (hopen : f o g.opening = opened) (hnotes : ∀ x ∈ g.notes, f opened x = opened)
    (hclose : f opened g.closing = o) : g.signs.foldl f o = o := by
  have hinside : ∀ notes : List (Sign β), (∀ x ∈ notes, f opened x = opened) →
      notes.foldl f opened = opened := by
    intro notes hnotes
    induction notes with
    | nil => rfl
    | cons x rest ih =>
      obtain ⟨hx,hrest⟩ := List.forall_mem_cons.mp hnotes
      rw [List.foldl_cons, hx, ih hrest]
  rw [signs, List.foldl_cons, hopen, List.foldl_append, hinside g.notes hnotes, List.foldl_cons,
    hclose, List.foldl_nil]

/-- No note of a group has an accidental of its own. -/
def GraceGroup.Plain [Beats β] (g : GraceGroup β) : Prop :=
  ∀ x ∈ g.notes, ∀ w : WrittenNote β, WrittenNote.read? x.token.text = some w →
    w.accidental = none

/-- The music that is left without the groups. -/
def withoutGraces (pieces : List (Piece β)) : List (Piece β) :=
  pieces.filter fun p => p matches .sign _

end Groups

variable {β : Type} [Beats β]

/-! ## A group by itself -/

def Timing.readAll (o : Timing β) (signs : List (Sign β)) : Timing β :=
  signs.foldl (fun o x => (o.handle x.token x.context).1) o

def Melody.readAll (o : Melody β) (signs : List (Sign β)) : Melody β :=
  signs.foldl (fun o x => o.handle x.token x.context) o

/-- A group that stands where none is open takes no time. -/
theorem Timing.readAll_graces {o : Timing β} (hgrace : o.inGrace = false) (g : GraceGroup β) :
    o.readAll g.signs = o := by
  let opened : Timing β := { o with inGrace := true }
  have hopen : (o.handle g.opening.token g.opening.context).1 = opened := by
    simp only [Timing.handle, g.opens, Timing.openGrace, hgrace]
    rfl
  have hnotes : ∀ x ∈ g.notes, (opened.handle x.token x.context).1 = opened := by
    intro x hx
    simp only [Timing.handle, g.written x hx, Timing.note, opened, if_true]
    split <;> rfl
  have hclose : (opened.handle g.closing.token g.closing.context).1 = o := by
    simp only [Timing.handle, g.closes, Timing.closeGrace, opened, if_true, Timing.accept]
    rw [← hgrace]
  exact g.foldl_signs hopen hnotes hclose

/-- It leaves the melody alone if its notes have no accidentals. -/
theorem Melody.readAll_graces {o : Melody β} (hgrace : o.inGrace = false) {g : GraceGroup β}
    (hplain : g.Plain) : o.readAll g.signs = o := by
  let opened : Melody β := { o with inGrace := true }
  have hopen : o.handle g.opening.token g.opening.context = opened := by
    simp only [Melody.handle, g.opens, opened]
  have hnotes : ∀ x ∈ g.notes, opened.handle x.token x.context = opened := by
    intro x hx
    simp only [Melody.handle, g.written x hx, Melody.note]
    split
    · rfl
    · next w hread =>
      simp only [VoiceMemory.resolve, hplain x hx w hread, opened, if_true]
  have hclose : opened.handle g.closing.token g.closing.context = o := by
    simp only [Melody.handle, g.closes, opened]
    rw [← hgrace]
  exact g.foldl_signs hopen hnotes hclose

namespace MusicState

variable {first s t u : MusicState β} {id : String} {v : Voice β}

theorem run_cons (m : MusicMove β) (rest : List (MusicMove β)) (hm : s.move m = .ok t) :
    s.run (m :: rest) = t.run rest := by
  rw [run, hm, ok_bind]

/-- A token is handled while a voice is active and has its chord: the voice stays active and keeps
its chord, and time and melody come out as they are told. -/
theorem Tracks.told (h : Tracks id first v s (s.solo id)) (token : Token)
    (context : MusicContext β) :
    ∃ t problem w, s.handle token context = .ok (t,problem) ∧ Tracks id first w t (t.solo id) ∧
      (t.timing id,problem) = (s.timing id).handle token context ∧
      t.melody w = (s.melody v).handle token context := by
  obtain ⟨t,seen,problem,w,hok,-,htracks⟩ := h.handle token context
  obtain rfl := htracks.solo
  obtain ⟨-,htiming⟩ := takesTime_handle h.active h.found token context t problem hok
  obtain ⟨w',hw',hmelody⟩ := sings_handle h token context t problem hok
  obtain rfl : w = w' := Option.some.inj (htracks.found.symm.trans hw')
  exact ⟨t,problem,w,hok,htracks,htiming,hmelody⟩

theorem Tracks.told_all (h : Tracks id first v s (s.solo id)) (signs : List (Sign β)) :
    ∃ t w, s.run (signs.map Sign.move) = .ok t ∧ Tracks id first w t (t.solo id) ∧
      t.timing id = (s.timing id).readAll signs ∧ t.melody w = (s.melody v).readAll signs := by
  induction signs generalizing s v with
  | nil => exact ⟨s,v,rfl,h,rfl,rfl⟩
  | cons x rest ih =>
    obtain ⟨t,problem,w,hok,htracks,htiming,hmelody⟩ := h.told x.token x.context
    obtain ⟨u,y,hrun,hlast,htimingLast,hmelodyLast⟩ := ih htracks
    have hmove : s.move x.move = .ok t := by
      rw [Sign.move, MusicState.move, hok]
      rfl
    have hfirst : t.timing id = ((s.timing id).handle x.token x.context).1 :=
      congrArg Prod.fst htiming
    refine ⟨u,y,(run_cons _ _ hmove).trans hrun,hlast,?_,?_⟩
    · rw [htimingLast, hfirst]
      rfl
    · rw [hmelodyLast, hmelody]
      rfl

/-! ## Music that is read twice -/

/-- Reads music, and keeps what each token that stays comes to: what is wrong with it if anything
is, and the cursor behind it. -/
def read (s : MusicState β) :
    List (Piece β) → Except Fault (List (Option MusicProblem × β) × MusicState β)
  | [] => .ok ([],s)
  | .sign x :: rest => do
    let (t,problem) ← s.handle x.token x.context
    let (answers,u) ← t.read rest
    .ok ((problem,t.voices.cursor) :: answers,u)
  | .graces g :: rest => do
    let t ← s.run (g.signs.map Sign.move)
    t.read rest

theorem read_sign {x : Sign β} {problem : Option MusicProblem} {rest : List (Piece β)}
    {answers : List (Option MusicProblem × β)} (hok : s.handle x.token x.context = .ok (t,problem))
    (hrest : t.read rest = .ok (answers,u)) :
    s.read (.sign x :: rest) = .ok ((problem,t.voices.cursor) :: answers,u) := by
  simp only [read, hok, hrest, ok_bind]

/-- Each group that may be left out starts where no grace group is open. -/
def Separate (s : MusicState β) : List (Piece β) → Prop
  | [] => True
  | .sign x :: rest =>
    ∀ r, s.handle x.token x.context = .ok r → r.1.Separate rest
  | .graces g :: rest =>
    s.graceGroup = none ∧ ∀ t, s.run (g.signs.map Sign.move) = .ok t → t.Separate rest

instance Separate.decidable : (s : MusicState β) → (pieces : List (Piece β)) →
    Decidable (s.Separate pieces)
  | _, [] => .isTrue trivial
  | s, .sign x :: rest =>
    have : Decidable (∀ r, s.handle x.token x.context = .ok r → r.1.Separate rest) :=
      match s.handle x.token x.context with
      | .ok r =>
        have := Separate.decidable r.1 rest
        decidable_of_iff (r.1.Separate rest) ⟨fun h _ hr => Except.ok.inj hr ▸ h,fun h => h r rfl⟩
      | .error _ => .isTrue nofun
    this
  | s, .graces g :: rest =>
    have : Decidable (∀ t, s.run (g.signs.map Sign.move) = .ok t → t.Separate rest) :=
      match s.run (g.signs.map Sign.move) with
      | .ok t =>
        have := Separate.decidable t rest
        decidable_of_iff (t.Separate rest) ⟨fun h _ ht => Except.ok.inj ht ▸ h,fun h => h t rfl⟩
      | .error _ => .isTrue nofun
    have : Decidable (s.graceGroup = none) := decidable_of_iff _ Option.isNone_iff_eq_none
    inferInstanceAs (Decidable (s.graceGroup = none ∧
      ∀ t, s.run (g.signs.map Sign.move) = .ok t → t.Separate rest))

/-- A group that stands where none is open comes to nothing for the time, and without accidentals
to nothing for the melody. -/
theorem Tracks.graces (h : Tracks id first v s (s.solo id)) (hgroup : s.graceGroup = none)
    (g : GraceGroup β) :
    ∃ t w, s.run (g.signs.map Sign.move) = .ok t ∧ Tracks id first w t (t.solo id) ∧
      t.timing id = s.timing id ∧ (g.Plain → t.melody w = s.melody v) := by
  obtain ⟨t,w,hrun,htracks,htiming,hmelody⟩ := h.told_all g.signs
  have hinGrace : s.graceGroup.isSome = false := by rw [hgroup, Option.isSome_none]
  refine ⟨t,w,hrun,htracks,?_,fun hplain => ?_⟩
  · rw [htiming, Timing.readAll_graces hinGrace]
  · rw [hmelody, Melody.readAll_graces hinGrace hplain]

/-- Two states in which the music goes on alike: time is the same in both, and so is the melody if
what was left out is plain. In both the other voices are as they were at first. -/
structure Abreast (id : String) (first : MusicState β) (plain : Prop) (s s' : MusicState β) :
    Prop where
  timing : s'.timing id = s.timing id
  tracks : ∃ v v', Tracks id first v s (s.solo id) ∧ Tracks id first v' s' (s'.solo id) ∧
    (plain → s'.melody v' = s.melody v)

namespace Abreast

variable {s' : MusicState β} {plain : Prop} (h : Abreast id first plain s s')

include h

/-- A token that stays comes to the same in both. -/
theorem sign (token : Token) (context : MusicContext β) :
    ∃ t t' problem, s.handle token context = .ok (t,problem) ∧
      s'.handle token context = .ok (t',problem) ∧ Abreast id first plain t t' := by
  obtain ⟨v,v',htracks,htracks',hmelody⟩ := h.tracks
  obtain ⟨t,problem,w,hok,htold,htiming,htones⟩ := htracks.told token context
  obtain ⟨t',problem',w',hok',htold',htiming',htones'⟩ := htracks'.told token context
  rw [h.timing, ← htiming] at htiming'
  obtain ⟨hsame,rfl⟩ := Prod.mk.inj htiming'
  refine ⟨t,t',_,hok,hok',hsame,w,w',htold,htold',fun hplain => ?_⟩
  rw [htones, htones', hmelody hplain]

/-- A group may be read in one of them and left out of the other. -/
theorem graces (hgroup : s.graceGroup = none) {g : GraceGroup β} (hg : plain → g.Plain) :
    ∃ t, s.run (g.signs.map Sign.move) = .ok t ∧ Abreast id first plain t s' := by
  obtain ⟨v,v',htracks,htracks',hmelody⟩ := h.tracks
  obtain ⟨t,w,hrun,hread,htiming,htones⟩ := htracks.graces hgroup g
  refine ⟨t,hrun,h.timing.trans htiming.symm,w,v',hread,htracks',fun hplain => ?_⟩
  rw [hmelody hplain, htones (hg hplain)]

theorem cursor : s'.voices.cursor = s.voices.cursor := congrArg Timing.cursor h.timing

/-- Music with its groups and music without them come to the same. -/
theorem read {pieces : List (Piece β)} (hplain : plain → ∀ g, .graces g ∈ pieces → g.Plain)
    (hseparate : s.Separate pieces) :
    ∃ answers t t', s.read pieces = .ok (answers,t) ∧
      s'.read (withoutGraces pieces) = .ok (answers,t') ∧ Abreast id first plain t t' := by
  induction pieces generalizing s s' with
  | nil => exact ⟨[],s,s',rfl,rfl,h⟩
  | cons p rest ih =>
    have hrest : plain → ∀ g, .graces g ∈ rest → g.Plain := fun hp g hg =>
      hplain hp g (List.mem_cons_of_mem _ hg)
    cases p with
    | sign x =>
      obtain ⟨t,t',problem,hok,hok',habreast⟩ := h.sign x.token x.context
      obtain ⟨answers,u,u',hu,hu',hlast⟩ := ih habreast hrest (hseparate _ hok)
      refine ⟨(problem,t.voices.cursor) :: answers,u,u',?_,?_,hlast⟩
      · exact read_sign hok hu
      · rw [← habreast.cursor]
        exact read_sign hok' hu'
    | graces g =>
      have hg : plain → g.Plain := fun hp => hplain hp g List.mem_cons_self
      obtain ⟨t,hrun,habreast⟩ := h.graces hseparate.1 hg
      obtain ⟨answers,u,u',hu,hu',hlast⟩ := ih habreast hrest (hseparate.2 t hrun)
      refine ⟨answers,u,u',?_,hu',hlast⟩
      rw [MusicState.read, hrun, ok_bind, hu]

/-- All voices have the same melody in both. -/
theorem melodyOf_eq (hp : plain) (other : String) :
    melodyOf (s'.voices.notesOf other) = melodyOf (s.voices.notesOf other) := by
  obtain ⟨v,v',htracks,htracks',hmelody⟩ := h.tracks
  by_cases hother : other = id
  · subst hother
    rw [VoiceTable.notesOf_of_find? htracks.found, VoiceTable.notesOf_of_find? htracks'.found]
    exact congrArg Melody.tones (hmelody hp)
  · rw [VoiceTable.notesOf, VoiceTable.notesOf, VoiceTable.find?_eq_head?,
      VoiceTable.find?_eq_head?, htracks.named other hother, htracks'.named other hother]

end Abreast

/-- A state is in step with itself where a voice is active that has the notes of the open chord. -/
theorem InRange.abreast (h : s.InRange) (hactive : s.voices.active = some id)
    (hchord : ∀ chord ∈ s.chord, ∀ i ∈ chord.notes, i < (s.voices.notesOf id).length)
    (plain : Prop) : Abreast id s plain s s := by
  obtain ⟨v,hv⟩ := VoiceTable.exists_find? (h.active id hactive)
  have hnotes : s.voices.notesOf id = v.notes := VoiceTable.notesOf_of_find? hv
  have htracks : Tracks id s v s (s.solo id) := {
    solo := rfl
    active := hactive
    found := hv
    lastGroup := hnotes ▸ h.lastGroup id
    tiedFrom := hnotes ▸ h.tiedFrom id
    chord := hnotes ▸ hchord
    part := rfl
    contains _ := rfl
    named _ _ := rfl
    memory _ _ := rfl }
  exact ⟨rfl,v,v,htracks,htracks,fun _ => rfl⟩

/-- From a reachable state with an active voice that has the notes of the open chord, if one is
open, music is read alike with and without any of its grace groups: each token that stays has the
same result and leaves the same cursor behind it, and the melodies of all voices are the same if the
notes of the groups have no accidentals. -/
theorem read_withoutGraces {moves : List (MusicMove β)} (hrun : initial.run moves = .ok s)
    (hactive : s.voices.active = some id)
    (hchord : ∀ chord ∈ s.chord, ∀ i ∈ chord.notes, i < (s.voices.notesOf id).length)
    {pieces : List (Piece β)} (hseparate : s.Separate pieces) :
    ∃ answers t u, s.read pieces = .ok (answers,t) ∧
      s.read (withoutGraces pieces) = .ok (answers,u) ∧
      ((∀ g, .graces g ∈ pieces → g.Plain) → ∀ other,
        melodyOf (u.voices.notesOf other) = melodyOf (t.voices.notesOf other)) := by
  have hrange : s.InRange := inRange_initial.run hrun
  obtain ⟨answers,t,u,ht,hu,hlast⟩ :=
    (hrange.abreast hactive hchord (∀ g, .graces g ∈ pieces → g.Plain)).read (fun h => h) hseparate
  exact ⟨answers,t,u,ht,hu,hlast.melodyOf_eq⟩

/-- A chord is open, and grace groups are left out before its second note and before a note that is
tied to it. -/
theorem read_withoutGraces_inChord :
    ∃ (moves : List (MusicMove Rat)) (s t u : MusicState Rat) (pieces : List (Piece Rat))
        (answers : List (Option MusicProblem × Rat)), initial.run moves = .ok s ∧
      s.voices.active = some "1" ∧ s.chord.map (·.notes) = some [1] ∧ s.Separate pieces ∧
      s.read pieces = .ok (answers,t) ∧
      s.read (withoutGraces pieces) = .ok (answers,u) ∧
      (t.voices.notesOf "1").length = 5 ∧ (u.voices.notesOf "1").length = 3 ∧
      melodyOf (u.voices.notesOf "1") = melodyOf (t.voices.notesOf "1") := by
  let sign (kind : TokenKind) (text : String) : Sign Rat := ⟨⟨kind,text.toList,1,1,[]⟩,.initial⟩
  let graces (text : String) : GraceGroup Rat :=
    { opening := sign .graceStart "\x7b"
      notes := [sign .note text]
      closing := sign .graceEnd "\x7d"
      opens := rfl
      written := List.forall_mem_singleton.mpr rfl
      closes := rfl }
  let moves : List (MusicMove Rat) := [.voices (.switchTo "1"),(sign .note "A").move,
    (sign .chordStart "[").move,(sign .note "C").move]
  let pieces : List (Piece Rat) := [.graces (graces "d"),.sign (sign .note "E"),
    .sign (sign .chordEnd "]"),.graces (graces "f"),.sign (sign .tie "-"),.sign (sign .note "E")]
  have hrun : ((initial.run moves).toOption.map fun s =>
      ((s.voices.active,s.chord.map (·.notes),(s.voices.notesOf "1").length),
        decide (s.Separate pieces),
        (s.read pieces).toOption.map fun r => (r.2.voices.notesOf "1").length,
        (s.read (withoutGraces pieces)).toOption.map fun r => (r.2.voices.notesOf "1").length)) =
      some ((some "1",some [1],2),true,some 5,some 3) := by decide +kernel
  obtain ⟨s,hs,hvalue⟩ := exists_of_toOption_map hrun
  obtain ⟨hbefore,hvalue⟩ := Prod.mk.inj hvalue
  obtain ⟨hactive,hbefore⟩ := Prod.mk.inj hbefore
  obtain ⟨hnotes,hlength⟩ := Prod.mk.inj hbefore
  obtain ⟨hseparate,hvalue⟩ := Prod.mk.inj hvalue
  obtain ⟨hwith,hwithout⟩ := Prod.mk.inj hvalue
  have hchord : ∀ chord ∈ s.chord, ∀ i ∈ chord.notes, i < (s.voices.notesOf "1").length := by
    intro chord hchord i hi
    rw [hchord] at hnotes
    have hone : chord.notes = [1] := Option.some.inj hnotes
    rw [hone] at hi
    rw [List.mem_singleton.mp hi, hlength]
    exact Nat.one_lt_two
  have hread (text : String) (htext : (WrittenNote.read? (β := Rat) text.toList).all
      (·.accidental.isNone) = true) : (graces text).Plain := by
    intro x hx w hw
    obtain rfl := List.mem_singleton.mp hx
    rw [hw] at htext
    exact Option.isNone_iff_eq_none.mp htext
  have hplain : ∀ g, .graces g ∈ pieces → g.Plain := by
    intro g hg
    have hgroups : g = graces "d" ∨ g = graces "f" := by simpa [pieces] using hg
    rcases hgroups with rfl | rfl
    · exact hread "d" (by decide +kernel)
    · exact hread "f" (by decide +kernel)
  have hapart := of_decide_eq_true hseparate
  obtain ⟨answers,t,u,ht,hu,hmelody⟩ := read_withoutGraces hs hactive hchord hapart
  rw [ht] at hwith
  rw [hu] at hwithout
  exact ⟨moves,s,t,u,pieces,answers,hs,hactive,hnotes,hapart,ht,hu,Option.some.inj hwith,
    Option.some.inj hwithout,hmelody hplain "1"⟩

/-- With its grace note the D is tied, and then there is no third note for the chord that was opened
behind two notes of another voice; without it there is. -/
theorem read_withoutGraces_elsewhere :
    ∃ (moves : List (MusicMove Rat)) (s t : MusicState Rat) (pieces : List (Piece Rat))
        (answers : List (Option MusicProblem × Rat)), initial.run moves = .ok s ∧
      s.voices.active = some "2" ∧ s.graceGroup = none ∧ s.Separate pieces ∧
      (∃ fault, s.read pieces = .error fault) ∧
      s.read (withoutGraces pieces) = .ok (answers,t) := by
  let sign (kind : TokenKind) (text : String) : Sign Rat := ⟨⟨kind,text.toList,1,1,[]⟩,.initial⟩
  let moves : List (MusicMove Rat) := [.voices (.switchTo "2"),(sign .note "A").move,
    (sign .note "^D").move,(sign .tie "-").move,(sign .bar "|").move,.voices (.switchTo "1"),
    (sign .note "A").move,(sign .note "B").move,(sign .chordStart "[").move,
    (sign .note "C").move,.voices (.switchTo "2")]
  let graces : GraceGroup Rat :=
    { opening := sign .graceStart "\x7b"
      notes := [sign .note "^D"]
      closing := sign .graceEnd "\x7d"
      opens := rfl
      written := List.forall_mem_singleton.mpr rfl
      closes := rfl }
  let pieces : List (Piece Rat) := [.graces graces,.sign (sign .note "D"),
    .sign (sign .chordEnd "]")]
  have hrun : ((initial.run moves).toOption.map fun s =>
      ((s.voices.active,s.graceGroup.isNone,decide (s.Separate pieces)),
        (s.read pieces).toOption.isNone,
        (s.read (withoutGraces pieces)).toOption.map fun _ => true)) =
      some ((some "2",true,true),true,some true) := by decide +kernel
  obtain ⟨s,hs,hvalue⟩ := exists_of_toOption_map hrun
  obtain ⟨hbefore,hvalue⟩ := Prod.mk.inj hvalue
  obtain ⟨hactive,hbefore⟩ := Prod.mk.inj hbefore
  obtain ⟨hgroup,hseparate⟩ := Prod.mk.inj hbefore
  obtain ⟨hwith,hwithout⟩ := Prod.mk.inj hvalue
  have hfault : ∃ fault, s.read pieces = .error fault := by
    cases hread : s.read pieces with
    | error fault => exact ⟨fault,rfl⟩
    | ok r =>
      rw [hread] at hwith
      cases hwith
  obtain ⟨⟨answers,t⟩,hread,-⟩ := exists_of_toOption_map hwithout
  exact ⟨moves,s,t,pieces,answers,hs,hactive,Option.isNone_iff_eq_none.mp hgroup,
    of_decide_eq_true hseparate,hfault,hread⟩

end MusicState
end AbcTune
