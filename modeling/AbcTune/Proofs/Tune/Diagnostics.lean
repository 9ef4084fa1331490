import Mathlib.Data.List.Forall2
import AbcTune.Proofs.Tune.Reading

/-! # The order of problems

Problems are found in many ways: with a token, with a field, with a directive, and with what is
still open where a line ends. All of them are kept in the order in which they are found, and that is
the order of the source: line by line, and within a line token by token. What is wrong with the
repeats comes before all lines, and what is wrong with the parts behind them.
-/
namespace AbcTune

/-- Where a token stands, by line and column. -/
def Token.place (t : Token) : Nat × Nat := (t.line,t.column)

/-- The line and the column of a problem with a token. -/
def Diagnostic.place? : Diagnostic → Option (Nat × Nat)
  | .parse line column _ => some (line,column)
  | .structural _ _ | .metadata _ _ | .repeatLimit _ | .several _ => none

/-! ## Places of tokens -/

namespace Token

theorem place_ofLexeme (kind : TokenKind) (slice : Text) (line column : Nat) :
    (ofLexeme kind slice line column).place = (line,column) := by
  unfold ofLexeme
  split <;> rfl

/-- The tokens of a line of music stand one behind another. -/
theorem musicTokens_columns (line column : Nat) (t : Text) :
    (∀ token ∈ musicTokens line column t, token.line = line ∧ column ≤ token.column) ∧
      (musicTokens line column t).Pairwise (·.column < ·.column) := by
  induction column, t using musicTokens.induct with
  | case1 column => simp [musicTokens]
  | case2 column c rest kind more hscan ih =>
    obtain ⟨hplaces,hcolumns⟩ := ih
    have hfirst := place_ofLexeme kind (c :: rest.take more) line column
    obtain ⟨hline,hcolumn⟩ := Prod.mk.inj hfirst
    rw [musicTokens, hscan]
    dsimp only
    constructor
    · intro token htoken
      rcases List.mem_cons.mp htoken with rfl | htoken
      · exact ⟨hline,hcolumn.ge⟩
      · obtain ⟨hsame,hle⟩ := hplaces token htoken
        exact ⟨hsame,by omega⟩
    · refine List.pairwise_cons.mpr ⟨fun token htoken => ?_,hcolumns⟩
      have hle := (hplaces token htoken).2
      omega

/-- The tokens of a line have its number, and their columns increase. -/
theorem tokenize_columns (t : Text) (line : Nat) :
    (∀ token ∈ tokenize t line, token.line = line) ∧
      (tokenize t line).Pairwise (·.column < ·.column) := by
  have hmusic : ∀ t, (∀ token ∈ musicTokens line 1 t, token.line = line) ∧
      (musicTokens line 1 t).Pairwise (·.column < ·.column) := by
    intro t
    obtain ⟨hplaces,hcolumns⟩ := musicTokens_columns line 1 t
    exact ⟨fun token htoken => (hplaces token htoken).1,hcolumns⟩
  unfold tokenize ofLine
  split
  · simp
  · simp
  · split
    · simp [ofField]
    · exact hmusic _
  · exact hmusic _

end Token

/-! ## Problems of one line -/

/-- Problems that were found with these tokens of a line. All of them have its number, and those
with a place come in the order of the tokens, no two of them with the same one. -/
structure FoundIn (line : Nat) (tokens : List Token) (ds : List Diagnostic) : Prop where
  line : ∀ d ∈ ds, d.line? = some line
  places : (ds.filterMap Diagnostic.place?).Sublist (tokens.map Token.place)

section FoundIn

variable {line : Nat} {xs ys : List Token} {ds es : List Diagnostic}

theorem FoundIn.append (h : FoundIn line xs ds) (h' : FoundIn line ys es) :
    FoundIn line (xs ++ ys) (ds ++ es) where
  line d hd := (List.mem_append.mp hd).elim (h.line d) (h'.line d)
  places := by
    rw [List.filterMap_append, List.map_append]
    exact h.places.append h'.places

/-- Problems without a place are found anywhere in their line. -/
theorem foundIn_of_place?_eq_none (tokens : List Token)
    (h : ∀ d ∈ ds, d.line? = some line ∧ d.place? = none) : FoundIn line tokens ds where
  line d hd := (h d hd).1
  places := by
    rw [List.filterMap_eq_nil_iff.mpr fun d hd => (h d hd).2]
    exact List.nil_sublist _

theorem foundIn_nil (line : Nat) (tokens : List Token) : FoundIn line tokens [] :=
  foundIn_of_place?_eq_none tokens (by simp)

theorem foundIn_atToken (token : Token) (problem : Option MusicProblem) :
    FoundIn token.line [token] (problem.toList.map (Diagnostic.atToken token)) := by
  cases problem with
  | none => exact foundIn_nil _ _
  | some p => exact ⟨by simp [Diagnostic.atToken, Diagnostic.line?],List.Sublist.refl _⟩

/-- The columns of the problems of a line increase, and are those of its tokens. -/
theorem FoundIn.columns {text : Text} (h : FoundIn line (Token.tokenize text line) ds) :
    (ds.filterMap Diagnostic.place?).Pairwise (fun p q => p.2 < q.2) ∧
      ∀ p ∈ ds.filterMap Diagnostic.place?,
        p.1 = line ∧ ∃ token ∈ Token.tokenize text line, token.column = p.2 := by
  obtain ⟨hlines,hcolumns⟩ := Token.tokenize_columns text line
  constructor
  · have hplaces : ((Token.tokenize text line).map Token.place).Pairwise fun p q => p.2 < q.2 :=
      List.pairwise_map.mpr hcolumns
    exact hplaces.sublist h.places
  · intro p hp
    obtain ⟨token,htoken,rfl⟩ := List.mem_map.mp (h.places.subset hp)
    exact ⟨hlines token htoken,token,htoken,rfl⟩

end FoundIn

namespace TuneReading

variable {r mid next last : TuneReading} {line : Nat} {xs ys : List Token}

/-- From one state of the reading to another, problems with these tokens of a line were found. -/
def Finds (line : Nat) (tokens : List Token) (r next : TuneReading) : Prop :=
  ∃ ds, next.diagnostics = r.diagnostics ++ ds ∧ FoundIn line tokens ds

theorem finds_of_eq (tokens : List Token) (h : next.diagnostics = r.diagnostics) :
    Finds line tokens r next :=
  ⟨[],by rw [h, List.append_nil],foundIn_nil line tokens⟩

theorem Finds.trans (h : Finds line xs r mid) (h' : Finds line ys mid next) :
    Finds line (xs ++ ys) r next := by
  obtain ⟨ds,hds,hfound⟩ := h
  obtain ⟨es,hes,hfound'⟩ := h'
  exact ⟨ds ++ es,by rw [hes, hds, List.append_assoc],hfound.append hfound'⟩

theorem readField_finds (r : TuneReading) (token : Token) (tokens : List Token) :
    Finds token.line tokens r (r.readField token) := by
  unfold readField
  dsimp only
  split
  · exact finds_of_eq tokens rfl
  · exact finds_of_eq tokens rfl
  · next d hd =>
    refine ⟨[d],rfl,foundIn_of_place?_eq_none tokens fun d' hd' => ?_⟩
    obtain ⟨p,rfl⟩ := FieldState.metadata_of_applyField hd
    cases List.mem_singleton.mp hd'
    exact ⟨rfl,rfl⟩

theorem readDirective_finds (r : TuneReading) (text : Text) (line : Nat) (tokens : List Token) :
    Finds line tokens r (r.readDirective text line) := by
  refine ⟨_,rfl,foundIn_of_place?_eq_none tokens fun d hd => ?_⟩
  split at hd
  · cases List.mem_singleton.mp hd
    exact ⟨rfl,rfl⟩
  · cases hd
  · cases hd

theorem readToken_finds {token : Token} (h : r.readToken token = .ok next) :
    Finds token.line [token] r next := by
  by_cases hkind : ∃ name, token.kind = .inlineField name
  · obtain ⟨name,hkind⟩ := hkind
    rw [readToken, hkind] at h
    cases h
    exact r.readField_finds token _
  · rw [readToken_eq r fun name hname => hkind ⟨name,hname⟩] at h
    obtain ⟨⟨music,problem⟩,-,rfl⟩ := exists_of_map_ok h
    exact ⟨_,rfl,foundIn_atToken token problem⟩

theorem readTokens_finds {tokens : List Token} (hline : ∀ token ∈ tokens, token.line = line)
    (h : r.readTokens tokens = .ok next) : Finds line tokens r next := by
  induction tokens generalizing r with
  | nil =>
    cases h
    exact finds_of_eq [] rfl
  | cons token rest ih =>
    obtain ⟨hfirst,hrest⟩ := List.forall_mem_cons.mp hline
    obtain ⟨mid,hmid,h⟩ := exists_of_bind_ok h
    have htoken := readToken_finds hmid
    rw [hfirst] at htoken
    exact htoken.trans (ih hrest h)

/-- What is open at the end of a line is found behind all tokens. -/
theorem endLine_finds (r : TuneReading) (line : Nat) : Finds line [] r (r.endLine line) := by
  refine ⟨_,rfl,foundIn_of_place?_eq_none [] fun d hd => ?_⟩
  obtain ⟨p,-,rfl⟩ := List.mem_map.mp hd
  exact ⟨rfl,rfl⟩

theorem readMusic_finds {tokens : List Token} (hline : ∀ token ∈ tokens, token.line = line)
    (h : r.readMusic tokens line = .ok next) : Finds line tokens r next := by
  obtain ⟨mid,hmid,hend⟩ := exists_of_bind_ok h
  have htokens : Finds line tokens r mid := readTokens_finds (r := r.beginMusic) hline hmid
  cases hend
  split
  · exact htokens
  · have hall := htokens.trans (mid.endLine_finds line)
    rwa [List.append_nil] at hall

/-- What a line adds to the problems is found in that line, in the order of its tokens. -/
theorem readLine_finds {text : Text} (h : r.readLine text line = .ok next) :
    Finds line (Token.tokenize text line) r next := by
  have hlines := (Token.tokenize_columns text line).1
  have hcourse := course_of_readLine h
  generalize Token.tokenize text line = tokens at hlines hcourse
  cases hcourse with
  | @field first rest name hkind =>
    rw [← hlines first List.mem_cons_self]
    exact r.readField_finds first _
  | @directive first rest hkind => exact r.readDirective_finds first.text line _
  | passed hpassed => exact finds_of_eq _ rfl
  | @early first rest hkind hsolid hstage =>
    -- music before the key is reported once for a line, with its first token
    refine ⟨_,rfl,by simp [Diagnostic.line?],?_⟩
    rw [← hlines first List.mem_cons_self]
    exact (List.nil_sublist (rest.map Token.place)).cons_cons first.place
  | music hkind hsolid hstage hread => exact readMusic_finds hlines hread

/-! ## Problems line by line -/

/-- What each line adds to the problems. -/
def found (r : TuneReading) : List (Nat × Text) → List (List Diagnostic)
  | [] => []
  | l :: rest =>
    (r.readLine l.2 l.1).toOption.elim [] fun next =>
      next.diagnostics.drop r.diagnostics.length :: next.found rest

theorem readLines_found {lines : List (Nat × Text)} (h : r.readLines lines = .ok last) :
    last.diagnostics = r.diagnostics ++ (r.found lines).flatten ∧
      List.Forall₂ (fun l ds => FoundIn l.1 (Token.tokenize l.2 l.1) ds) lines (r.found lines) := by
  induction lines generalizing r with
  | nil =>
    cases h
    exact ⟨(List.append_nil _).symm,.nil⟩
  | cons l rest ih =>
    obtain ⟨next,hnext,hrest⟩ := exists_of_bind_ok h
    obtain ⟨ds,hds,hfound⟩ := readLine_finds hnext
    obtain ⟨hlast,hall⟩ := ih hrest
    have hdrop : next.diagnostics.drop r.diagnostics.length = ds := by
      rw [hds, List.drop_left]
    have hcons : r.found (l :: rest) = ds :: next.found rest := by
      rw [found, hnext, ← hdrop]
      rfl
    rw [hcons]
    refine ⟨?_,.cons hfound hall⟩
    rw [hlast, hds, List.flatten_cons, List.append_assoc]

end TuneReading

/-- What the lines of a source add to the problems, in the order of the source. -/
structure SourceOrder (lines : List (Nat × Text)) (found : List (List Diagnostic)) : Prop where
  /-- All that a line adds has its number. -/
  each : List.Forall₂ (fun l ds => ∀ d ∈ ds, d.line? = some l.1) lines found
  ascending : (found.flatten.filterMap Diagnostic.line?).Pairwise (· ≤ ·)
  columns : (found.flatten.filterMap Diagnostic.place?).Pairwise fun p q => p.1 = q.1 → p.2 < q.2
  /-- Each problem with a token has the place of one in its line. -/
  tokens : ∀ p ∈ found.flatten.filterMap Diagnostic.place?, ∃ l ∈ lines, l.1 = p.1 ∧
    ∃ token ∈ Token.tokenize l.2 l.1, token.column = p.2

theorem numberLines_lt (first : Nat) (xs : List Text) :
    (∀ l ∈ numberLines first xs, first ≤ l.1 ∧ l.1 < first + xs.length) ∧
      (numberLines first xs).Pairwise (·.1 < ·.1) := by
  induction xs generalizing first with
  | nil => simp [numberLines]
  | cons x xs ih =>
    obtain ⟨hbounds,hlt⟩ := ih (first + 1)
    rw [numberLines, List.length_cons]
    constructor
    · intro l hl
      rcases List.mem_cons.mp hl with rfl | hl
      · exact ⟨le_rfl,by dsimp only; omega⟩
      · have hbound := hbounds l hl
        omega
    · refine List.pairwise_cons.mpr ⟨fun l hl => ?_,hlt⟩
      have hbound := hbounds l hl
      omega

theorem exists_line_of_mem_flatten {lines : List (Nat × Text)} {found : List (List Diagnostic)}
    (h : List.Forall₂ (fun l ds => ∀ d ∈ ds, d.line? = some l.1) lines found) {d : Diagnostic}
    (hd : d ∈ found.flatten) : ∃ l ∈ lines, d.line? = some l.1 := by
  induction h with
  | nil => cases hd
  | @cons l ds lines found hline hall ih =>
    rcases List.mem_append.mp hd with hd | hd
    · exact ⟨l,List.mem_cons_self,hline d hd⟩
    · obtain ⟨l',hl',hd⟩ := ih hd
      exact ⟨l',List.mem_cons_of_mem l hl',hd⟩

/-- Lines whose numbers increase, with what was found in each of them. -/
theorem sourceOrder_of_foundIn {lines : List (Nat × Text)} {found : List (List Diagnostic)}
    (h : List.Forall₂ (fun l ds => FoundIn l.1 (Token.tokenize l.2 l.1) ds) lines found)
    (hlt : lines.Pairwise (·.1 < ·.1)) : SourceOrder lines found := by
  induction h with
  | nil => exact ⟨.nil,.nil,.nil,by simp⟩
  | @cons l ds lines found hfound hall ih =>
    obtain ⟨hfirst,hrest⟩ := List.pairwise_cons.mp hlt
    obtain ⟨heach,hlines,hcolumns,htokens⟩ := ih hrest
    obtain ⟨hincrease,hstand⟩ := hfound.columns
    have hline : ∀ n ∈ ds.filterMap Diagnostic.line?, n = l.1 := by
      intro n hn
      obtain ⟨d,hd,hdn⟩ := List.mem_filterMap.mp hn
      exact Option.some.inj (hdn.symm.trans (hfound.line d hd))
    have hlater : ∀ n ∈ found.flatten.filterMap Diagnostic.line?, l.1 < n := by
      intro n hn
      obtain ⟨d,hd,hdn⟩ := List.mem_filterMap.mp hn
      obtain ⟨l',hl',hline⟩ := exists_line_of_mem_flatten heach hd
      cases hdn.symm.trans hline
      exact hfirst l' hl'
    refine ⟨.cons hfound.line heach,?_,?_,?_⟩
    · rw [List.flatten_cons, List.filterMap_append]
      refine List.pairwise_append.mpr ⟨?_,hlines,fun n hn m hm => ?_⟩
      · refine List.pairwise_of_forall_mem_list fun n hn m hm => ?_
        rw [hline n hn, hline m hm]
      · rw [hline n hn]
        exact (hlater m hm).le
    · rw [List.flatten_cons, List.filterMap_append]
      refine List.pairwise_append.mpr ⟨?_,hcolumns,fun p hp q hq heq => ?_⟩
      · refine hincrease.imp ?_
        intro p q hlt _
        exact hlt
      · -- a later problem has a later line
        obtain ⟨l',hl',hq,-⟩ := htokens q hq
        have hlt := hfirst l' hl'
        have hp := (hstand p hp).1
        omega
    · intro p hp
      rw [List.flatten_cons, List.filterMap_append] at hp
      rcases List.mem_append.mp hp with hp | hp
      · obtain ⟨hline,token,htoken,hcolumn⟩ := hstand p hp
        exact ⟨l,List.mem_cons_self,hline.symm,token,htoken,hcolumn⟩
      · obtain ⟨l',hl',htoken⟩ := htokens p hp
        exact ⟨l',List.mem_cons_of_mem l hl',htoken⟩

/-! ## Whole sources -/

/-- What is wrong with the repeats of a source is that they could not be written out. -/
theorem exists_expandSource {source text : Text} {ds : List Diagnostic}
    (h : expandSource source = .ok (text,ds)) :
    ∃ limit : Option Diagnostic, ds = limit.toList ∧
      ∀ d ∈ limit, d = .repeatLimit Repeat.mostExpansions := by
  unfold expandSource at h
  split at h
  · cases h
    exact ⟨none,rfl,by simp⟩
  · cases h
    exact ⟨some (.repeatLimit Repeat.mostExpansions),rfl,by simp⟩
  · cases h

/-- Whatever the source, the problems of a tune are in its order. The one that comes first, if there
is one, is that the repeats could not be written out. Then the problems of the lines follow, with
the number of the line that was read when each of them was found: the numbers do not decrease, and
for problems with tokens of one line the columns increase, each of them the column of a token of that
line. What is wrong with the parts comes last. -/
theorem Tune.read_inOrder {source : Text} {tune : Tune Float} (h : read source = .ok tune) :
    ∃ (text : Text) (limit undefined : Option Diagnostic) (r : TuneReading),
      let lines := numberLines 1 (Text.lines text)
      let start := (TuneReading.initial (hasKeyLine text)).report limit.toList
      expandSource source = .ok (text,limit.toList) ∧ start.readLines lines = .ok r ∧
        tune = r.finish ∧
        tune.diagnostics =
          limit.toList ++ (start.found lines).flatten ++ undefined.toList ∧
        (∀ d ∈ limit, d = .repeatLimit Repeat.mostExpansions) ∧
        (∀ d ∈ undefined, ∃ line label, d = .structural line (.undefinedPart label)) ∧
        undefined =
          (r.draft.assemble implicitVoice r.sections (r.settings.sequenceLine.getD 0)).2 ∧
        (∀ d ∈ (start.found lines).flatten, ∃ line, d.line? = some line ∧
          1 ≤ line ∧ line ≤ (Text.lines text).length) ∧
        SourceOrder lines (start.found lines) := by
  rw [read_eq] at h
  obtain ⟨r,hsource,rfl⟩ := exists_of_map_ok h
  obtain ⟨⟨text,ds⟩,hexpand,hlines⟩ := exists_of_bind_ok hsource
  obtain ⟨limit,rfl,hlimit⟩ := exists_expandSource hexpand
  obtain ⟨hdiagnostics,hfound⟩ := TuneReading.readLines_found hlines
  obtain ⟨hbounds,hlt⟩ := numberLines_lt 1 (Text.lines text)
  have horder := sourceOrder_of_foundIn hfound hlt
  refine ⟨text,limit,_,r,hexpand,hlines,rfl,?_,hlimit,?_,rfl,?_,horder⟩
  · change r.diagnostics ++ _ = _
    rw [hdiagnostics]
    rfl
  · intro d hd
    exact ⟨_,undefinedPart_of_assemble d hd⟩
  · intro d hd
    obtain ⟨l,hl,hline⟩ := exists_line_of_mem_flatten horder.each hd
    obtain ⟨hle,hlt⟩ := hbounds l hl
    exact ⟨l.1,hline,hle,by omega⟩

/-- Problems of all kinds: with a field, with a directive, with tokens of music, with what a line
leaves open, and with a part that is not there. -/
def faulty : Text :=
  "X:1\nM:x\nP:AQ\nL:1/4\nK:C\nP:A\n%%MIDI program x\n] C [L:x] \x7d\n(3CD [\n".toList

theorem Tune.read_inOrder_faulty :
    ∃ tune, read faulty = .ok tune ∧
      tune.diagnostics.map (fun d => (d.line?,d.place?)) =
        [(some 2,none), (some 7,none), (some 8,some (8,1)), (some 8,none), (some 8,some (8,11)),
          (some 9,none), (some 9,none), (some 3,none)] ∧
      ∃ (text : Text) (limit undefined : Option Diagnostic) (found : List (List Diagnostic)),
        tune.diagnostics = limit.toList ++ found.flatten ++ undefined.toList ∧
          SourceOrder (numberLines 1 (Text.lines text)) found := by
  have hevaluated : (read faulty).toOption.map (fun tune =>
      tune.diagnostics.map fun d => (d.line?,d.place?)) =
        some [(some 2,none), (some 7,none), (some 8,some (8,1)), (some 8,none),
          (some 8,some (8,11)), (some 9,none), (some 9,none), (some 3,none)] := by
    decide +kernel
  obtain ⟨tune,hread,hplaces⟩ := exists_of_toOption_map hevaluated
  obtain ⟨text,limit,undefined,r,-,-,-,hall,-,-,-,-,horder⟩ := read_inOrder hread
  exact ⟨tune,hread,hplaces,text,limit,undefined,_,hall,horder⟩

end AbcTune
