import AbcTune.Control.Command
import AbcTune.Proofs.Number.Display
import AbcTune.Proofs.Number.Reading
import AbcTune.Proofs.Text.Pair
import AbcTune.Proofs.Text.Run

/-! # Requests that are read again

A command is written as its word and its argument, and both are found again in its line. Line feeds
of notation are written as a backslash and an n, and the backslash itself is not marked: what is
read has a line feed wherever the notation had a backslash before an n. All other commands are read
as they were written.
-/
namespace AbcTune

/-! ## Line feeds -/

theorem head?_flatMap_lineFeed {t : Text}
    (h : (t.flatMap fun c => if c = '\n' then ['\\', 'n'] else [c]).head? = some 'n') :
    t.head? = some 'n' := by
  cases t with
  | nil => cases h
  | cons c t =>
    rw [List.flatMap_cons] at h
    split at h
    · exact absurd (Option.some.inj h) (by decide)
    · exact h

/-- Notation without carriage returns is read with a line feed for each backslash before an n. -/
theorem unescapeLines_escapeLines {t : Text} (h : '\r' ∉ t) :
    unescapeLines (escapeLines t) = unescapeLines t := by
  rw [escapeLines, Text.replacePair_of_freeOf _ (Text.freeOf_of_first_notMem h)]
  clear h
  unfold unescapeLines
  induction t using Text.pairInduction (a := '\\') (b := 'n') with
  | nil => rfl
  | pair t ih =>
    rw [Text.replacePair_pair, ← ih]
    exact Text.replacePair_pair _ _
  | cons c t hpair ih =>
    rw [List.flatMap_cons, Text.replacePair_cons _ hpair, ← ih]
    split
    · next hfeed =>
      rw [hfeed]
      exact Text.replacePair_pair _ _
    · refine Text.replacePair_cons _ fun hmark => hpair ⟨hmark.1,?_⟩
      exact head?_flatMap_lineFeed hmark.2

theorem unescapeLines_eq_self_iff {t : Text} :
    unescapeLines t = t ↔ Text.FreeOf '\\' 'n' t :=
  Text.replacePair_eq_self_iff (by decide) (by decide)

/-! ## Lines -/

/-- A text that is not empty and has no blank at either end. -/
structure Text.IsArgument (t : Text) : Prop where
  nonempty : t ≠ []
  first : ∀ c ∈ t.head?, isBlank c = false
  last : ∀ c ∈ t.getLast?, isBlank c = false

theorem Text.IsArgument.trim {t : Text} (h : t.IsArgument) : Text.trim t = t :=
  trim_of_ends h.first h.last

namespace Command

theorem isBlank_of_isLineBreak {c : Char} (h : isLineBreak c = true) : Text.isBlank c = true := by
  unfold isLineBreak at h
  rw [Bool.or_eq_true, decide_eq_true_eq, decide_eq_true_eq] at h
  rcases h with rfl | rfl <;> decide

theorem splitLine_append {verb argument : Text} (hverb : ' ' ∉ verb) (h : argument.IsArgument) :
    splitLine (verb ++ ' ' :: argument) = (verb,argument) := by
  have hlast : ∀ c ∈ (verb ++ ' ' :: argument).getLast?, isLineBreak c = false := by
    intro c hc
    rw [List.getLast?_append_of_ne_nil _ (List.cons_ne_nil _ _),
      List.getLast?_cons_of_ne_nil h.nonempty] at hc
    exact Bool.eq_false_iff.mpr (mt isBlank_of_isLineBreak (Bool.eq_false_iff.mp (h.last c hc)))
  unfold splitLine
  dsimp only
  rw [Text.reverse_dropWhile_reverse hlast, Text.cutAt_append hverb]
  dsimp only
  rw [h.trim]

theorem required_argument {argument : Text} (h : argument.IsArgument) (verb : Text)
    (what : String) : required verb argument what = .ok argument := by
  unfold required
  rw [if_neg]
  simpa using h.nonempty

theorem read_append {start verb argument : Text} (hstart : start = verb ++ [' '])
    (hverb : ' ' ∉ verb) (h : argument.IsArgument) :
    read (start ++ argument) = readParts verb argument := by
  rw [hstart, List.append_assoc, List.singleton_append, read, splitLine_append hverb h]

/-! ## Commands -/

/-- The notation that a command carries. -/
def source? : Command → Option Text
  | .queueNotation t | .loopNotation t => some t
  | _ => none

def mapSource (f : Text → Text) : Command → Command
  | .queueNotation t => .queueNotation (f t)
  | .loopNotation t => .loopNotation (f t)
  | c => c

/-- What a line can carry: an argument is not empty and has no blank at either end, and an id takes
64 bits. The numbers of a volume and of a tempo are left out. -/
def Sendable : Command → Prop
  | .queueNotation t | .loopNotation t => '\r' ∉ t ∧ (escapeLines t).IsArgument
  | .queueFile path => path.IsArgument
  | .remove id => id ≤ mostId
  | .volume _ | .tempo _ => False
  | _ => True

theorem mapSource_eq_self_iff {f : Text → Text} {c : Command} :
    c.mapSource f = c ↔ ∀ t ∈ c.source?, f t = t := by
  cases c <;> simp [mapSource, source?]

theorem isArgument_toDigits (id : Nat) : Text.IsArgument (Nat.toDigits 10 id) :=
  ⟨Nat.toDigits_ne_nil,fun c hc => Text.solid_toDigits id c (List.mem_of_head? hc),
    fun c hc => Text.solid_toDigits id c (List.mem_of_getLast? hc)⟩

/-- Escaped notation is read as what the notation itself unescapes to. -/
theorem readSource_escapeLines {verb t : Text} {what : String} (hreturn : '\r' ∉ t)
    (h : (escapeLines t).IsArgument) (queue : Text → Command) :
    ((required verb (escapeLines t) what).map fun a => queue (unescapeLines a)) =
      .ok (queue (unescapeLines t)) := by
  rw [required_argument h, Except.map, unescapeLines_escapeLines hreturn]

theorem read_toLine_mapSource {c : Command} (h : c.Sendable) :
    read c.toLine = .ok (c.mapSource unescapeLines) := by
  cases c with
  | queueNotation t =>
    have hread : read (queueNotation t).toLine = readParts "QUEUE_ABC".toList (escapeLines t) :=
      read_append (by decide) (by decide) h.2
    exact hread.trans (readSource_escapeLines h.1 h.2 queueNotation)
  | loopNotation t =>
    have hread : read (loopNotation t).toLine = readParts "LOOP_ABC".toList (escapeLines t) :=
      read_append (by decide) (by decide) h.2
    exact hread.trans (readSource_escapeLines h.1 h.2 loopNotation)
  | queueFile path =>
    have hread : read (queueFile path).toLine = readParts "QUEUE_FILE".toList path :=
      read_append (by decide) (by decide) h
    refine hread.trans ?_
    change (required _ path _).map queueFile = _
    rw [required_argument h]
    rfl
  | remove id =>
    have hargument := isArgument_toDigits id
    have hread : read (remove id).toLine = readParts "REMOVE".toList (Nat.toDigits 10 id) :=
      read_append (by decide) (by decide) hargument
    refine hread.trans ?_
    change (required _ (Nat.toDigits 10 id) _ >>= fun a =>
      (orElse (.badSlotId a) (Number.readNat? mostId a)).map remove) = _
    rw [required_argument hargument]
    change (orElse _ (Number.readNat? mostId (Nat.toDigits 10 id))).map remove = _
    rw [Number.readNat?_toDigits h]
    rfl
  | volume v => exact h.elim
  | tempo t => exact h.elim
  | stop | pause | resume | skip | clear | status | list => rfl

/-- Every command is read from its line with its notation unescaped once more; that is the command
itself exactly where no backslash of the notation stands before an n. -/
theorem read_toLine {c : Command} (h : c.Sendable) :
    read c.toLine = .ok (c.mapSource unescapeLines) ∧
      (read c.toLine = .ok c ↔ ∀ t ∈ c.source?, Text.FreeOf '\\' 'n' t) := by
  refine ⟨read_toLine_mapSource h,?_⟩
  rw [read_toLine_mapSource h, Except.ok.injEq, mapSource_eq_self_iff]
  exact forall₂_congr fun t _ => unescapeLines_eq_self_iff

/-- A line that is continued keeps its backslash, which stands before the line feed. -/
theorem read_toLine_continued :
    (loopNotation "C \\\nD".toList).Sendable ∧
      read (loopNotation "C \\\nD".toList).toLine = .ok (loopNotation "C \\\nD".toList) := by
  have hsendable : (loopNotation "C \\\nD".toList).Sendable :=
    ⟨by decide,by decide,by rintro c ⟨⟩; decide,by rintro c ⟨⟩; decide⟩
  refine ⟨hsendable,(read_toLine hsendable).2.mpr ?_⟩
  rintro t ⟨⟩
  exact Text.freeOf_of_second_notMem (by decide)

/-- A backslash before an n is read as a line feed. -/
theorem read_toLine_backslash :
    (queueNotation "C\\nD".toList).Sendable ∧
      read (queueNotation "C\\nD".toList).toLine = .ok (queueNotation "C\nD".toList) ∧
      read (queueNotation "C\\nD".toList).toLine ≠ .ok (queueNotation "C\\nD".toList) := by
  have hread : read (queueNotation "C\\nD".toList).toLine = .ok (queueNotation "C\nD".toList) := rfl
  refine ⟨⟨by decide,by decide,by rintro c ⟨⟩; decide,by rintro c ⟨⟩; decide⟩,hread,?_⟩
  rw [hread]
  intro h
  exact absurd (queueNotation.inj (Except.ok.inj h)) (by decide)

end Command
end AbcTune
