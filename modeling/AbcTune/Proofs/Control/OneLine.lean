import AbcTune.Control.Response
import AbcTune.Fault
import AbcTune.Proofs.Control.Request
import AbcTune.Proofs.Text.Line

/-! # Requests of one line

A command is sent with a line feed behind it, and each line that is not blank is a request. Notation
is escaped and numbers have no line feeds, so a line feed can only come from a path, which is sent
as it is: a path with line feeds is sent as that many lines more.
-/
namespace AbcTune

theorem lineFeed_notMem_escapeLines (t : Text) : '\n' ∉ escapeLines t := by
  unfold escapeLines
  rw [List.mem_flatMap]
  rintro ⟨c,-,hc⟩
  split at hc
  · exact absurd hc (by decide)
  · next hne => exact hne (List.mem_singleton.mp hc).symm

theorem Text.Solid.lineFeed_notMem {t : Text} (h : t.Solid) : '\n' ∉ t :=
  fun hfeed => absurd (h _ hfeed) (by decide)

namespace Command

/-- The path that a command carries. -/
def path? : Command → Option Text
  | .queueFile path => some path
  | _ => none

theorem count_lineFeed_toLine (c : Command) :
    c.toLine.count '\n' = (c.path?.getD []).count '\n' := by
  have hword {start t : Text} (hstart : start.count '\n' = 0) :
      (start ++ t).count '\n' = t.count '\n' := by
    rw [List.count_append, hstart, Nat.zero_add]
  have hfree {start t : Text} (hstart : start.count '\n' = 0) (ht : '\n' ∉ t) :
      (start ++ t).count '\n' = 0 := by
    rw [hword hstart, List.count_eq_zero_of_not_mem ht]
  cases c with
  | queueNotation t => exact hfree (by decide) (lineFeed_notMem_escapeLines t)
  | loopNotation t => exact hfree (by decide) (lineFeed_notMem_escapeLines t)
  | queueFile path => exact hword (by decide)
  | remove id => exact hfree (by decide) (Text.solid_toDigits id).lineFeed_notMem
  | volume v => exact hfree (by decide) (Number.solid_plainSingle v).lineFeed_notMem
  | tempo t => exact hfree (by decide) (Number.solid_plain t).lineFeed_notMem
  | stop | pause | resume | skip | clear | status | list => rfl

theorem lineFeed_mem_toLine_iff {c : Command} :
    '\n' ∈ c.toLine ↔ ∃ path ∈ c.path?, '\n' ∈ path := by
  rw [← List.count_pos_iff, count_lineFeed_toLine, List.count_pos_iff]
  cases c.path? <;> simp

/-! ## Paths that are read -/

theorem eq_of_required_ok {verb argument a : Text} {what : String}
    (h : required verb argument what = .ok a) : argument ≠ [] ∧ a = argument := by
  unfold required at h
  split at h
  · cases h
  · next hne => exact ⟨by simpa using hne,(Except.ok.inj h).symm⟩

theorem path_of_readParts {verb argument path : Text} {c : Command}
    (h : readParts verb argument = .ok c) (hpath : path ∈ c.path?) :
    argument ≠ [] ∧ path = argument := by
  unfold readParts at h
  split at h
  case h_1 | h_2 =>
    obtain ⟨a,-,rfl⟩ := exists_of_map_ok h
    cases hpath
  case h_3 =>
    obtain ⟨a,ha,rfl⟩ := exists_of_map_ok h
    obtain rfl : a = path := Option.some.inj hpath
    exact eq_of_required_ok ha
  case h_11 | h_12 | h_13 =>
    obtain ⟨a,-,h⟩ := exists_of_bind_ok h
    obtain ⟨x,-,rfl⟩ := exists_of_map_ok h
    cases hpath
  case h_14 | h_15 => cases h
  all_goals
    cases h
    cases hpath

theorem isBlank_getLast?_trim (t : Text) :
    ∀ c ∈ (Text.trim t).getLast?, Text.isBlank c = false := by
  intro c hc
  obtain ⟨hne,rfl⟩ := List.mem_getLast?_eq_getLast hc
  exact Bool.eq_false_iff.mpr (List.rdropWhile_last_not Text.isBlank (Text.trimStart t) hne)

theorem isBlank_getLast?_argument (line : Text) :
    ∀ c ∈ (splitLine line).2.getLast?, Text.isBlank c = false := by
  unfold splitLine
  dsimp only
  split
  · exact isBlank_getLast?_trim _
  · nofun

/-! ## Requests -/

theorem isBlankLine_toLine (c : Command) (rest : Text) :
    Text.isBlankLine (c.toLine ++ rest) = false := by
  cases c <;> rfl

/-- Whether a line is answered. -/
def isRequest (line : Text) : Bool := !Text.isBlankLine line

theorem countP_isRequest_pos {t : Text} (h : Text.isBlankLine t = false) :
    0 < (Text.lines t).countP isRequest := by
  obtain ⟨line,hline,hblank⟩ := Text.exists_mem_lines_of_not_blank h
  exact List.countP_pos_iff.mpr ⟨line,hline,by rw [isRequest, hblank]; rfl⟩

/-- What stands behind a line feed is not blank where the text does not end in a blank. -/
theorem isBlankLine_of_getLast? {first rest : Text}
    (h : ∀ c ∈ (first ++ '\n' :: rest).getLast?, Text.isBlank c = false) :
    Text.isBlankLine rest = false := by
  have hne : '\n' :: rest ≠ [] := List.cons_ne_nil _ _
  have hlast := h _ <| by
    rw [List.getLast?_append_of_ne_nil _ hne]
    exact List.getLast?_eq_some_getLast hne
  refine List.all_eq_false.mpr ⟨_,?_,Bool.eq_false_iff.mp hlast⟩
  rcases List.mem_cons.mp (List.getLast_mem hne) with hfeed | hmem
  · rw [hfeed] at hlast
    exact absurd hlast (by decide)
  · exact hmem

/-- A path with a line feed is sent as the request for its beginning and at least one more, as it
does not end in a blank. -/
theorem two_le_requests {c : Command}
    (hlast : ∀ path ∈ c.path?, ∀ x ∈ path.getLast?, Text.isBlank x = false)
    (hfeed : '\n' ∈ c.toLine) :
    2 ≤ (Text.lines (c.toLine ++ ['\n'])).countP isRequest := by
  obtain ⟨path,hpath,hfeed⟩ := lineFeed_mem_toLine_iff.mp hfeed
  obtain ⟨first,rest,rfl⟩ := List.append_of_mem hfeed
  cases c with
  | queueFile path =>
    obtain rfl : path = first ++ '\n' :: rest := Option.some.inj hpath
    have hline : (queueFile (first ++ '\n' :: rest)).toLine ++ ['\n'] =
        ((queueFile first).toLine ++ ['\n']) ++ (rest ++ ['\n']) := by
      change ("QUEUE_FILE ".toList ++ (first ++ '\n' :: rest)) ++ ['\n'] =
        ("QUEUE_FILE ".toList ++ first ++ ['\n']) ++ (rest ++ ['\n'])
      simp
    have hone : 0 < (Text.lines ((queueFile first).toLine ++ ['\n'])).countP isRequest :=
      countP_isRequest_pos (isBlankLine_toLine _ _)
    have htwo : 0 < (Text.lines (rest ++ ['\n'])).countP isRequest :=
      countP_isRequest_pos <| by
        have hrest := isBlankLine_of_getLast? (hlast _ hpath)
        unfold Text.isBlankLine at hrest ⊢
        rw [List.all_append, hrest, Bool.false_and]
    rw [hline, Text.lines_append List.getLast?_concat, List.countP_append]
    omega
  | _ => cases hpath

end Command

namespace Scheduler

theorem length_of_answerLines {s next : Scheduler Float} {files : ReadFile} {lines : List Text}
    {responses : List Response} (h : s.answerLines files lines = .ok (next,responses)) :
    responses.length = lines.countP Command.isRequest := by
  induction lines generalizing s responses with
  | nil =>
    cases h
    rfl
  | cons line lines ih =>
    rw [answerLines] at h
    split at h
    · next hblank => rw [ih h, List.countP_cons_of_neg (by simp [Command.isRequest, hblank])]
    · next hblank =>
      obtain ⟨⟨s',r⟩,-,h⟩ := exists_of_bind_ok h
      obtain ⟨⟨s'',rs⟩,hrest,h⟩ := exists_of_bind_ok h
      cases h
      rw [List.length_cons, ih hrest,
        List.countP_cons_of_pos (by simp [Command.isRequest, hblank])]

theorem answerLines_singleton (s : Scheduler Float) (files : ReadFile) {line : Text}
    (h : Text.isBlankLine line = false) :
    s.answerLines files [line] = (s.answer files line).map fun p => (p.1,[p.2]) := by
  rw [answerLines, h, if_neg Bool.false_ne_true]
  cases s.answer files line <;> rfl

end Scheduler

namespace Command

/-- Commands that are sent: they are read from some text or carry some notation. -/
def Sent (c : Command) : Prop := (∃ text, read text = .ok c) ∨ c.source?.isSome

theorem Sent.isBlank_getLast? {c : Command} (h : c.Sent) :
    ∀ path ∈ c.path?, ∀ x ∈ path.getLast?, Text.isBlank x = false := by
  intro path hpath
  rcases h with ⟨text,hread⟩ | hsource
  · rw [(path_of_readParts hread hpath).2]
    exact isBlank_getLast?_argument text
  · cases c with
    | queueFile path => cases hsource
    | _ => cases hpath

/-- A command that is sent has as many lines more than one as its path has line feeds. Without any
it is answered as one request, and only then is there a single response. -/
theorem answerLines_toLine {c : Command} (h : c.Sent) (s : Scheduler Float) (files : ReadFile) :
    ('\n' ∈ c.toLine ↔ ∃ path ∈ c.path?, '\n' ∈ path) ∧
      (Text.lines (c.toLine ++ ['\n'])).length = (c.path?.getD []).count '\n' + 1 ∧
      ('\n' ∉ c.toLine →
        s.answerLines files (Text.lines (c.toLine ++ ['\n'])) =
          (s.answer files (Text.dropLineEnd (c.toLine ++ ['\n']))).map fun p => (p.1,[p.2])) ∧
      ∀ next responses,
        s.answerLines files (Text.lines (c.toLine ++ ['\n'])) = .ok (next,responses) →
          (responses.length = 1 ↔ '\n' ∉ c.toLine) := by
  have hline : Text.isBlankLine (Text.dropLineEnd (c.toLine ++ ['\n'])) = false := by
    rw [Text.isBlankLine_dropLineEnd]
    exact isBlankLine_toLine c _
  refine ⟨lineFeed_mem_toLine_iff,?_,?_,?_⟩
  · rw [Text.length_lines_lineFeed, count_lineFeed_toLine]
  · intro hfeed
    rw [Text.lines_lineFeed hfeed, Scheduler.answerLines_singleton _ _ hline]
  · intro next responses hanswer
    rw [Scheduler.length_of_answerLines hanswer]
    constructor
    · intro hone hfeed
      have htwo := two_le_requests h.isBlank_getLast? hfeed
      omega
    · intro hfeed
      rw [Text.lines_lineFeed hfeed, List.countP_singleton, isRequest, hline]
      rfl

/-- A path of two words is one request, also where there is no such file. -/
theorem answerLines_toLine_words :
    read "queue_file  two words".toList = .ok (queueFile "two words".toList) ∧
      (Scheduler.new 4 1.0 1.0 true).answerLines (fun _ => .error .missing)
          (Text.lines ((queueFile "two words".toList).toLine ++ ['\n'])) =
        .ok (Scheduler.new 4 1.0 1.0 true,
          [.error ("Could not read two words: " ++ FileProblem.missing.message)]) := by
  have hread : read "queue_file  two words".toList = .ok (queueFile "two words".toList) := rfl
  refine ⟨hread,?_⟩
  rw [(answerLines_toLine (.inl ⟨_,hread⟩) _ _).2.2.1 (by decide)]
  rfl

/-- A path with a line feed is sent as a request for its beginning and a second request, which here
stops the player. -/
theorem answerLines_toLine_smuggled :
    read "QUEUE_FILE a\nSTOP".toList = .ok (queueFile "a\nSTOP".toList) ∧
      '\n' ∈ (queueFile "a\nSTOP".toList).toLine ∧
      Text.lines ((queueFile "a\nSTOP".toList).toLine ++ ['\n']) =
        ["QUEUE_FILE a".toList, "STOP".toList] ∧
      read "STOP".toList = .ok stop :=
  ⟨rfl,by decide,rfl,rfl⟩

end Command
end AbcTune
