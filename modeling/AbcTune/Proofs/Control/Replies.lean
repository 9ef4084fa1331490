import AbcTune.Proofs.Control.OneLine
import AbcTune.Proofs.Playback.Order
import AbcTune.Proofs.Tune.Titles

/-! # Replies

A reply is data lines and a last line, and whoever reads replies only knows the look of a last line.
Titles stand in data lines, so where one reply ends rests on every title being on one line, and on
what is written before it. Both hold of whatever was queued, so all that a player says can be
divided into its replies again.
-/
namespace AbcTune

open Text

/-! ## Lines -/

/-- A line that is not taken for the last one of a reply. -/
def IsData (line : Text) : Prop :=
  '\n' ∉ line ∧ line ≠ "OK".toList ∧ ¬"ERROR".toList <+: line

/-- Data lines start with such words. -/
def IsLabel (word : Text) : Prop :=
  '\n' ∉ word ∧ (word.head?.any fun c => c ≠ 'O' && c ≠ 'E') = true

instance (word : Text) : Decidable (IsLabel word) :=
  inferInstanceAs (Decidable (_ ∧ _))

theorem IsLabel.append {word t : Text} (h : IsLabel word) (ht : '\n' ∉ t) : IsData (word ++ t) := by
  obtain ⟨hfeed,hfirst⟩ := h
  cases word with
  | nil => cases hfirst
  | cons c word =>
    simp only [List.head?_cons, Option.any_some, Bool.and_eq_true, decide_eq_true_eq] at hfirst
    refine ⟨?_,?_,?_⟩
    · rw [List.mem_append]
      exact fun h => h.elim hfeed ht
    · intro h
      exact hfirst.1 (List.cons.inj h).1
    · intro h
      exact hfirst.2 (List.cons_prefix_cons.mp h).1.symm

theorem isLabel_toString (n : Nat) : IsLabel (toString n).toList := by
  have hdigits : (toString n).toList = Nat.toDigits 10 n := Nat.toList_repr
  refine ⟨(Number.solid_toString n).lineFeed_notMem,?_⟩
  rw [hdigits]
  cases hd : Nat.toDigits 10 n with
  | nil => exact absurd hd Nat.toDigits_ne_nil
  | cons c rest =>
    have hdigit : c.isDigit = true :=
      Nat.isDigit_of_mem_toDigits (by decide) (by decide) (hd ▸ List.mem_cons_self)
    simp only [List.head?_cons, Option.any_some, Bool.and_eq_true, decide_eq_true_eq]
    constructor <;> (rintro rfl; cases hdigit)

/-! ## Replies -/

namespace Response

variable {r : Response}

/-- The lines of a response as they are sent. -/
def sent (r : Response) : List Text := r.lines ++ [r.lastLine]

theorem flatten_write (replies : List Response) :
    (replies.map write).flatten = ((replies.flatMap sent).map (· ++ ['\n'])).flatten := by
  induction replies with
  | nil => rfl
  | cons r replies ih =>
    rw [List.map_cons, List.flatten_cons, ih, List.flatMap_cons, List.map_append,
      List.flatten_append]
    rfl

/-- What is taken for the last line of a response. -/
def isLast (line : Text) : Bool := line = "OK".toList || "ERROR".toList.isPrefixOf line

/-- The responses in some lines, where `passed` is the one under way. -/
def divideFrom (passed : List Text) : List Text → List (List Text)
  | [] => []
  | line :: rest =>
    if isLast line then (passed ++ [line]) :: divideFrom [] rest
    else divideFrom (passed ++ [line]) rest

/-- The responses in some lines, each up to a last line. -/
def divide (lines : List Text) : List (List Text) := divideFrom [] lines

/-- Only the last line is taken for one. -/
def Delimited (r : Response) : Prop := ∀ line ∈ r.lines, IsData line

theorem delimited_ok {lines : List String} (h : ∀ line ∈ lines, IsData line.toList) :
    (ok lines).Delimited := by
  intro line hline
  obtain ⟨s,hs,rfl⟩ := List.mem_map.mp hline
  exact h s hs

theorem delimited_error (message : String) : (error message).Delimited :=
  fun _ hline => absurd hline List.not_mem_nil

theorem delimited_ofResult (result : Except (SchedulerProblem Float) Unit) :
    (ofResult result).Delimited := by
  cases result with
  | error p => exact delimited_error p.message
  | ok _ => exact delimited_ok fun _ hline => absurd hline List.not_mem_nil

theorem lastLine_cases (r : Response) :
    r.lastLine = "OK".toList ∨ "ERROR ".toList <+: r.lastLine := by
  unfold lastLine
  split
  · exact .inl rfl
  · exact .inr (List.prefix_append _ _)

theorem isLast_lastLine (r : Response) : isLast r.lastLine = true := by
  rcases r.lastLine_cases with h | h
  · rw [h]
    rfl
  · have hword : "ERROR".toList <+: "ERROR ".toList := by decide
    rw [isLast, List.isPrefixOf_iff_prefix.mpr (hword.trans h), Bool.or_true]

/-- An error is kept on one line. -/
theorem lineFeed_notMem_lastLine (r : Response) : '\n' ∉ r.lastLine := by
  unfold lastLine
  split
  · decide
  · next message _ =>
    have hword : '\n' ∉ "ERROR ".toList := by decide
    rw [List.mem_append]
    rintro (h | h)
    · exact hword h
    · obtain ⟨c,-,hc⟩ := List.mem_map.mp h
      split at hc
      · cases hc
      · next hne => exact hne hc

theorem isLast_of_isData {line : Text} (h : IsData line) : isLast line = false := by
  have hprefix : "ERROR".toList.isPrefixOf line = false :=
    Bool.eq_false_iff.mpr fun hmark => h.2.2 (List.isPrefixOf_iff_prefix.mp hmark)
  rw [isLast, hprefix, Bool.or_false]
  exact decide_eq_false h.2.1

theorem divideFrom_append {lines : List Text} (h : ∀ line ∈ lines, IsData line)
    (passed rest : List Text) :
    divideFrom passed (lines ++ rest) = divideFrom (passed ++ lines) rest := by
  induction lines generalizing passed with
  | nil => rw [List.nil_append, List.append_nil]
  | cons line lines ih =>
    obtain ⟨hline,hlines⟩ := List.forall_mem_cons.mp h
    rw [List.cons_append, divideFrom, isLast_of_isData hline, if_neg Bool.false_ne_true,
      ih hlines, List.append_assoc]
    rfl

/-- Sent one after another, responses are divided where each of them ends; what is left open at the
end is none. -/
theorem divide_sent {replies : List Response} (h : ∀ r ∈ replies, r.Delimited) {rest : List Text}
    (hrest : ∀ line ∈ rest, IsData line) :
    divide (replies.flatMap sent ++ rest) = replies.map sent := by
  unfold divide
  induction replies with
  | nil =>
    rw [List.flatMap_nil, List.nil_append, ← List.append_nil rest, divideFrom_append hrest]
    rfl
  | cons r replies ih =>
    obtain ⟨hr,hreplies⟩ := List.forall_mem_cons.mp h
    rw [List.flatMap_cons, sent, List.append_assoc, List.append_assoc, divideFrom_append hr,
      List.singleton_append, divideFrom, isLast_lastLine, if_pos rfl, ih hreplies]
    rfl

end Response

/-! ## Texts of lines -/

theorem Text.pieces_lines {lines : List Text} (h : ∀ line ∈ lines, '\n' ∉ line) :
    pieces '\n' (lines.map (· ++ ['\n'])).flatten = lines ++ [[]] := by
  induction lines with
  | nil => rfl
  | cons line lines ih =>
    obtain ⟨hline,hlines⟩ := List.forall_mem_cons.mp h
    rw [List.map_cons, List.flatten_cons, List.append_assoc, List.singleton_append, pieces,
      piecesFrom_append hline]
    exact congrArg (line :: ·) (ih hlines)

/-! ## Titles of slots -/

namespace Scheduler

variable {s next : Scheduler Float}

/-- Every slot has its titles on one line each. -/
def Titled (s : Scheduler Float) : Prop := ∀ slot ∈ s.slots, slot.tune.heading.Titled

theorem Titled.onward (h : s.Titled) (honward : s.Onward next) : next.Titled :=
  fun slot hslot => h slot (honward.slots_sublist.subset hslot)

theorem lineFeed_notMem_title {slot : Slot Float} (h : slot.tune.heading.Titled) :
    '\n' ∉ slot.title.toList := by
  unfold Slot.title Tune.displayTitle Tune.title? Heading.title?
  cases htitles : slot.tune.heading.titles with
  | nil => decide
  | cons title rest => exact h title (htitles ▸ List.mem_cons_self)

theorem Titled.enqueue (h : s.Titled) {tune : Tune Float} (htune : tune.heading.Titled)
    (options : SlotOptions) : (s.enqueue tune options).1.Titled := by
  unfold Scheduler.enqueue
  split
  · exact h
  · intro slot hslot
    rw [slots, ← List.append_assoc] at hslot
    rcases List.mem_append.mp hslot with hold | hnew
    · exact h slot hold
    · rw [List.mem_singleton.mp hnew]
      exact htune

theorem isData_listLine {slot : Slot Float} (h : slot.tune.heading.Titled) :
    IsData (s.listLine slot.info).toList := by
  have htitle := lineFeed_notMem_title h
  unfold listLine
  simp only [String.toList_append, List.append_assoc]
  refine (isLabel_toString slot.id).append ?_
  have hcolon : '\n' ∉ ": ".toList := by decide
  have hplaying : '\n' ∉ " [playing]".toList := by decide
  have hlooping : '\n' ∉ " [loop]".toList := by decide
  simp only [List.mem_append, not_or]
  refine ⟨hcolon,htitle,?_,?_⟩
  · split
    · exact hplaying
    · exact List.not_mem_nil
  · split
    · exact hlooping
    · exact List.not_mem_nil

theorem isData_statusLines (h : s.Titled) : ∀ line ∈ s.statusLines, IsData line.toList := by
  have hlabel {word value : String} (hword : IsLabel word.toList) (hvalue : '\n' ∉ value.toList) :
      IsData (word ++ value).toList := by
    rw [String.toList_append]
    exact hword.append hvalue
  have hyesNo (b : Bool) : '\n' ∉ (yesNo b).toList := by cases b <;> decide
  have hplaces (b : Number.Binary) : '\n' ∉ b.twoPlaces.toList := b.solid_twoPlaces.lineFeed_notMem
  have hnumber (n : Nat) : '\n' ∉ (toString n).toList := (Number.solid_toString n).lineFeed_notMem
  unfold statusLines
  dsimp only
  intro line hline
  rcases List.mem_append.mp hline with hline | hline
  · simp only [List.mem_cons, List.not_mem_nil, or_false] at hline
    rcases hline with rfl | rfl | rfl | rfl | rfl
    · exact hlabel (by decide) (hnumber _)
    · exact hlabel (by decide) (hyesNo _)
    · exact hlabel (by decide) (hyesNo _)
    · exact hlabel (by decide) (hplaces _)
    · exact hlabel (by decide) (hplaces _)
  · cases hcurrent : s.current with
    | none =>
      simp only [status, hcurrent, Option.map_none] at hline
      cases hline
    | some slot =>
      have hslot : slot ∈ s.slots := by simp [slots, hcurrent]
      have htitle := lineFeed_notMem_title (h slot hslot)
      simp only [status, hcurrent, Option.map_some, List.mem_cons, List.not_mem_nil,
        or_false] at hline
      rcases hline with rfl | rfl
      · rw [String.append_assoc, String.append_assoc]
        refine hlabel (by decide) ?_
        simp only [String.toList_append, List.mem_append, not_or]
        exact ⟨hnumber _,by decide,htitle⟩
      · exact hlabel (by decide) (hplaces _)

end Scheduler

/-! ## Answers -/

/-- The notation that a command has read: its own, or that of a file. -/
def Command.heard? (files : ReadFile) : Command → Option Text
  | .queueFile path => (files (String.ofList path)).toOption.map String.toList
  | c => c.source?

namespace Scheduler

variable {s : Scheduler Float}

theorem queueNotation_titled (h : s.Titled) {source : Text} {tune : Tune Float}
    (hread : Tune.read source = .ok tune) (options : SlotOptions) :
    ∃ next r, s.queueNotation source options = .ok (next,r) ∧ next.Titled ∧ r.Delimited := by
  have hnext := h.enqueue (Tune.titled_of_read hread) options
  unfold queueNotation Tune.compiled
  rw [hread, ok_bind]
  cases tune.isComplete with
  | false => exact ⟨s,_,rfl,h,Response.delimited_error _⟩
  | true =>
    rw [if_pos rfl]
    dsimp only
    cases hqueued : s.enqueue tune options with
    | mk next result =>
      rw [hqueued] at hnext
      cases result with
      | error p => exact ⟨next,_,rfl,hnext,Response.delimited_error _⟩
      | ok id =>
        refine ⟨next,_,rfl,hnext,Response.delimited_ok ?_⟩
        intro line hline
        rw [List.mem_singleton.mp hline, String.toList_append]
        exact IsLabel.append (by decide) (Number.solid_toString id).lineFeed_notMem

theorem execute_titled (h : s.Titled) {files : ReadFile} {c : Command}
    (hread : ∀ source ∈ c.heard? files, ∃ tune, Tune.read source = .ok tune) :
    ∃ next r, s.execute files c = .ok (next,r) ∧ next.Titled ∧ r.Delimited := by
  cases c with
  | queueNotation t =>
    obtain ⟨tune,htune⟩ := hread t rfl
    exact queueNotation_titled h htune .once
  | loopNotation t =>
    obtain ⟨tune,htune⟩ := hread t rfl
    exact queueNotation_titled h htune .forever
  | queueFile path =>
    cases hfile : files (String.ofList path) with
    | error p => exact ⟨s,_,by rw [execute, hfile],h,Response.delimited_error _⟩
    | ok source =>
      rw [execute, hfile]
      obtain ⟨tune,htune⟩ := hread source.toList (by simp [Command.heard?, hfile, Except.toOption])
      exact queueNotation_titled h htune .once
  | stop => exact ⟨_,_,rfl,fun _ hslot => absurd hslot List.not_mem_nil,Response.delimited_ok nofun⟩
  | pause => exact ⟨_,_,rfl,h,Response.delimited_ok nofun⟩
  | resume => exact ⟨_,_,rfl,h,Response.delimited_ok nofun⟩
  | skip =>
    refine ⟨_,_,rfl,h.onward s.onward_advanceQueue,Response.delimited_ok ?_⟩
    intro line hline
    obtain ⟨id,-,rfl⟩ := List.mem_map.mp hline
    rw [String.toList_append]
    exact IsLabel.append (by decide) (Number.solid_toString id).lineFeed_notMem
  | remove id => exact ⟨_,_,rfl,h.onward (s.onward_remove id),Response.delimited_ofResult _⟩
  | clear =>
    refine ⟨_,_,rfl,?_,Response.delimited_ok ?_⟩
    · exact h.onward (onward_of_queue rfl (List.nil_sublist _) rfl)
    · intro line hline
      rw [List.mem_singleton.mp hline, String.toList_append]
      exact IsLabel.append (by decide) (Number.solid_toString _).lineFeed_notMem
  | volume v => exact ⟨_,_,rfl,h.onward (s.onward_setVolume v),Response.delimited_ofResult _⟩
  | tempo t => exact ⟨_,_,rfl,h.onward (s.onward_setTempo t),Response.delimited_ofResult _⟩
  | status => exact ⟨_,_,rfl,h,Response.delimited_ok (isData_statusLines h)⟩
  | list =>
    refine ⟨_,_,rfl,h,Response.delimited_ok ?_⟩
    intro line hline
    obtain ⟨info,hinfo,rfl⟩ := List.mem_map.mp hline
    obtain ⟨slot,hslot,rfl⟩ := List.mem_map.mp hinfo
    exact isData_listLine (h slot hslot)

theorem answer_titled (h : s.Titled) {files : ReadFile} {line : Text}
    (hread : ∀ c, Command.read line = .ok c → ∀ source ∈ c.heard? files,
      ∃ tune, Tune.read source = .ok tune) :
    ∃ next r, s.answer files line = .ok (next,r) ∧ next.Titled ∧ r.Delimited := by
  unfold answer
  cases hline : Command.read line with
  | error p => exact ⟨s,_,rfl,h,Response.delimited_error _⟩
  | ok c => exact execute_titled h (hread c hline)

theorem answerLines_titled (h : s.Titled) {files : ReadFile} {lines : List Text}
    (hread : ∀ line ∈ lines, ∀ c, Command.read line = .ok c → ∀ source ∈ c.heard? files,
      ∃ tune, Tune.read source = .ok tune) :
    ∃ next replies, s.answerLines files lines = .ok (next,replies) ∧ next.Titled ∧
      ∀ r ∈ replies, r.Delimited := by
  induction lines generalizing s with
  | nil => exact ⟨s,[],rfl,h,nofun⟩
  | cons line rest ih =>
    obtain ⟨hline,hrest⟩ := List.forall_mem_cons.mp hread
    rw [answerLines]
    split
    · exact ih h hrest
    · obtain ⟨next,r,hanswer,hnext,hr⟩ := answer_titled h hline
      obtain ⟨last,replies,hanswers,hlast,hreplies⟩ := ih hnext hrest
      refine ⟨last,r :: replies,?_,hlast,List.forall_mem_cons.mpr ⟨hr,hreplies⟩⟩
      rw [hanswer, ok_bind]
      dsimp only
      rw [hanswers]
      rfl

end Scheduler

/-! ## Conversations -/

/-- Where all tunes that are queued were read from notation, titles are on one line each. -/
theorem Station.follow_titled (slots notes usualGap start : Nat) (volume : Float32) (tempo : Float)
    (available : Bool) {steps : List (Station.Step Float)} {last : Station Float}
    (hrun : Station.follow steps
      (.new (.new slots volume tempo available) (.new usualGap notes start)) = some last)
    (hqueued : ∀ tune options, .request (.enqueue tune options) ∈ steps →
      ∃ source, Tune.read source = .ok tune) : last.scheduler.Titled := by
  intro slot hslot
  have hlast := (accounted_new slots notes usualGap start volume tempo available).follow hrun
  have haccepted : slot ∈ last.accepted :=
    hlast.kept.mem_iff.mpr (List.mem_append_left _ hslot)
  rcases mem_accepted_of_follow hrun haccepted with hmem | hstep
  · cases hmem
  · obtain ⟨source,hread⟩ := hqueued slot.tune slot.options hstep
    exact Tune.titled_of_read hread

/-- Whatever requests and phases of the ticker led to a state, as long as tunes are read from
notation, and whatever is asked then, a player says its greeting and one reply for each line that is
not blank. A reply is data lines and a last line, each without a line feed in it; no data line can
be taken for a last line, and so the text is divided into the replies again. -/
theorem Scheduler.serve_replies (slots notes usualGap start : Nat) (volume : Float32)
    (tempo : Float) (available : Bool) (steps : List (Station.Step Float)) {last : Station Float}
    (hrun : Station.follow steps
      (.new (.new slots volume tempo available) (.new usualGap notes start)) = some last)
    (hqueued : ∀ tune options, .request (.enqueue tune options) ∈ steps →
      ∃ source, Tune.read source = .ok tune)
    (files : ReadFile) (input : Text)
    (hread : ∀ line ∈ Text.lines input, ∀ c, Command.read line = .ok c →
      ∀ source ∈ c.heard? files, ∃ tune, Tune.read source = .ok tune) :
    ∃ (next : Scheduler Float) (output : Text) (replies : List Response),
      last.scheduler.serve files input = .ok (next,output) ∧
      output = ((greeting :: replies.flatMap Response.sent).map (· ++ ['\n'])).flatten ∧
      replies.length = (Text.lines input).countP Command.isRequest ∧
      (∀ r ∈ replies,
        (∀ line ∈ r.lines, '\n' ∉ line ∧ line ≠ "OK".toList ∧ ¬"ERROR".toList <+: line) ∧
        '\n' ∉ r.lastLine ∧ (r.lastLine = "OK".toList ∨ "ERROR ".toList <+: r.lastLine)) ∧
      Response.divide (Text.pieces '\n' output).tail = replies.map Response.sent := by
  have htitled :=
    Station.follow_titled slots notes usualGap start volume tempo available hrun hqueued
  obtain ⟨next,replies,hanswers,-,hreplies⟩ := answerLines_titled htitled hread
  have hfree : ∀ line ∈ greeting :: replies.flatMap Response.sent, '\n' ∉ line := by
    refine List.forall_mem_cons.mpr ⟨by decide,?_⟩
    intro line hline
    obtain ⟨r,hr,hline⟩ := List.mem_flatMap.mp hline
    rcases List.mem_append.mp hline with hline | hline
    · exact (hreplies r hr line hline).1
    · rw [List.mem_singleton.mp hline]
      exact r.lineFeed_notMem_lastLine
  refine ⟨next,_,replies,?_,rfl,length_of_answerLines hanswers,?_,?_⟩
  · rw [serve, hanswers, ok_bind]
    dsimp only
    rw [Response.flatten_write]
    rfl
  · intro r hr
    exact ⟨hreplies r hr,r.lineFeed_notMem_lastLine,r.lastLine_cases⟩
  · rw [Text.pieces_lines hfree]
    refine Response.divide_sent hreplies ?_
    intro line hline
    rw [List.mem_singleton.mp hline]
    exact ⟨List.not_mem_nil,by decide,by decide⟩

/-- A tune may be called like a last line. -/
theorem Scheduler.serve_replies_titled :
    ∃ (tune : Tune Float) (last : Station Float) (replies : List Response),
      Tune.read "X:1\nT:OK\nK:C\nC\n".toList = .ok tune ∧
      Station.follow [.request (.enqueue tune .once)]
        (.new (.new 8 1.0 1.0 true) (.new 0 4 0)) = some last ∧
      last.scheduler.serve (fun _ => .error .missing) "LIST\n\nNOPE\n".toList =
        .ok (last.scheduler,
          "ABCPLAY READY\n1: OK\nOK\nERROR Unknown command 'NOPE'\n".toList) ∧
      replies.map Response.sent =
        [["1: OK".toList, "OK".toList], ["ERROR Unknown command 'NOPE'".toList]] := by
  let source : Text := "X:1\nT:OK\nK:C\nC\n".toList
  let files : ReadFile := fun _ => .error .missing
  let input : Text := "LIST\n\nNOPE\n".toList
  have hevaluated : (Tune.read source).toOption.map
      (fun tune => (tune.isComplete,tune.displayTitle)) = some (true,"OK") := by
    decide +kernel
  obtain ⟨tune,htune,hboth⟩ := exists_of_toOption_map hevaluated
  obtain ⟨hcomplete,htitle⟩ := Prod.mk.inj hboth
  let start : Station Float := .new (.new 8 1.0 1.0 true) (.new 0 4 0)
  let steps : List (Station.Step Float) := [.request (.enqueue tune .once)]
  let last : Station Float :=
    { start with
      scheduler.queue := [⟨1,tune,.once⟩]
      scheduler.nextId := 2
      accepted := [⟨1,tune,.once⟩] }
  have hrefusal : start.scheduler.refusal? tune = none := by
    unfold refusal?
    rw [hcomplete]
    rfl
  have hrun : Station.follow steps start = some last := by
    have henqueue : start.enqueue tune .once = last := by
      unfold Station.enqueue Scheduler.enqueue
      rw [hrefusal]
      rfl
    exact congrArg some henqueue
  have hlist : last.scheduler.list.map last.scheduler.listLine = ["1: OK"] := by
    change [toString 1 ++ ": " ++ tune.displayTitle ++ "" ++ ""] = _
    rw [htitle]
    rfl
  have hserve : last.scheduler.serve files input = .ok (last.scheduler,
      "ABCPLAY READY\n1: OK\nOK\nERROR Unknown command 'NOPE'\n".toList) := by
    have hanswers : last.scheduler.answerLines files (Text.lines input) =
        .ok (last.scheduler,[.ok (last.scheduler.list.map last.scheduler.listLine),
          .error "Unknown command 'NOPE'"]) := rfl
    rw [serve, hanswers, hlist]
    rfl
  have hread : ∀ line ∈ Text.lines input, ∀ c, Command.read line = .ok c →
      ∀ source ∈ c.heard? files, ∃ tune, Tune.read source = .ok tune := by
    have hcommands : (Text.lines input).filterMap (fun line =>
        (Command.read line).toOption.bind (·.heard? files)) = [] := rfl
    intro line hline c hc heard hheard
    have hmem : heard ∈ (Text.lines input).filterMap fun line =>
        (Command.read line).toOption.bind (·.heard? files) :=
      List.mem_filterMap.mpr ⟨line,hline,by rw [hc]; exact hheard⟩
    rw [hcommands] at hmem
    cases hmem
  have hqueued : ∀ other options, .request (.enqueue other options) ∈ steps →
      ∃ source, Tune.read source = .ok other := by
    intro other options hstep
    cases List.mem_singleton.mp hstep
    exact ⟨source,htune⟩
  obtain ⟨next,output,replies,hreplies,-,-,-,hdivide⟩ :=
    serve_replies 8 4 0 0 1.0 1.0 true steps hrun hqueued files input hread
  rw [hserve] at hreplies
  cases hreplies
  refine ⟨tune,last,replies,htune,hrun,hserve,?_⟩
  rw [← hdivide]
  decide +kernel

end AbcTune
