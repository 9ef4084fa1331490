import Mathlib.Data.List.TakeWhile
import AbcTune.Proofs.Text.Mark
import AbcTune.Token.Lexer

/-! # Plain music

Plain music is made of notes, rests, bar lines and blanks. A blank ends each of its tokens, so that
its tokens are the same in front of any text that starts with a blank.
-/
namespace AbcTune.Token

/-- Kinds of the tokens of plain music. -/
def isPlainKind : TokenKind → Bool
  | .note | .rest | .multiRest | .bar | .space => true
  | _ => false

/-- Text whose tokens are notes, rests, bar lines and blanks. -/
def PlainMusic (t : Text) : Prop := ∀ token ∈ musicTokens 1 1 t, isPlainKind token.kind = true

instance (t : Text) : Decidable (PlainMusic t) :=
  inferInstanceAs (Decidable (∀ token ∈ musicTokens 1 1 t, isPlainKind token.kind = true))

/-- Kinds and texts of tokens, blanks left out. -/
def signs (tokens : List Token) : List (TokenKind × Text) :=
  (tokens.filter (·.kind != .space)).map fun token => (token.kind,token.text)

/-- What a line of music is made of, wherever it stands. -/
def symbols (t : Text) : List (TokenKind × Text) := signs (musicTokens 1 1 t)

/-! ## What follows a letter -/

/-- Characters behind the letter of a note or rest. -/
def isTailChar (c : Char) : Bool := c.isDigit || c = '/' || WrittenNote.isOctaveMark c

/-- A scan that takes characters of the tail of a note and stops at a blank. -/
structure StopsAtBlank (f : Text → Nat) : Prop where
  le (t : Text) : f t ≤ t.length
  append (t more : Text) : f (t ++ ' ' :: more) = f t
  chars (t : Text) : ∀ x ∈ t.take (f t), isTailChar x = true

theorem take_runLength (p : Char → Bool) (t : Text) : t.take (runLength p t) = t.takeWhile p :=
  (List.prefix_iff_eq_take.mp (List.takeWhile_prefix p)).symm

theorem stopsAtBlank_runLength {p : Char → Bool} (hblank : p ' ' = false)
    (hp : ∀ x, p x = true → isTailChar x = true) : StopsAtBlank (runLength p) where
  le t := (List.takeWhile_sublist p).length_le
  append t more := by
    unfold runLength
    rw [List.takeWhile_append]
    split
    · next h => rw [List.takeWhile_cons_of_neg (by simp [hblank]), List.append_nil, h]
    · rfl
  chars t x hx := by
    rw [take_runLength] at hx
    exact hp x (List.mem_takeWhile_imp hx)

theorem StopsAtBlank.andThen {f g : Text → Nat} (hf : StopsAtBlank f) (hg : StopsAtBlank g) :
    StopsAtBlank fun t => f t + g (t.drop (f t)) where
  le t := by
    have := hf.le t
    have := hg.le (t.drop (f t))
    rw [List.length_drop] at this
    omega
  append t more := by
    rw [hf.append, List.drop_append_of_le_length (hf.le t), hg.append]
  chars t x hx := by
    rw [List.take_add] at hx
    rcases List.mem_append.mp hx with hx | hx
    · exact hf.chars t x hx
    · exact hg.chars _ x hx

theorem stopsAtBlank_digitRun : StopsAtBlank digitRun :=
  stopsAtBlank_runLength (by decide) fun x hx => by simp [isTailChar, hx]

theorem slashRun_cons (t : Text) :
    slashRun ('/' :: t) = 1 + digitRun t + slashRun (t.drop (digitRun t)) := by
  rw [slashRun]

theorem slashRun_of_ne {c : Char} (hc : c ≠ '/') (t : Text) : slashRun (c :: t) = 0 := by
  rw [slashRun]
  simpa using hc

theorem slashRun_nil : slashRun [] = 0 := by
  rw [slashRun]
  simp

theorem slashRun_spec (t : Text) :
    slashRun t ≤ t.length ∧ (∀ more, slashRun (t ++ ' ' :: more) = slashRun t) ∧
      ∀ x ∈ t.take (slashRun t), isTailChar x = true := by
  induction t using slashRun.induct with
  | case1 rest ih =>
    obtain ⟨hle,happend,hchars⟩ := ih
    have hdigits := stopsAtBlank_digitRun.le rest
    rw [List.length_drop] at hle
    refine ⟨?_,?_,?_⟩
    · rw [slashRun_cons, List.length_cons]
      omega
    · intro more
      rw [List.cons_append, slashRun_cons, slashRun_cons, stopsAtBlank_digitRun.append,
        List.drop_append_of_le_length hdigits, happend]
    · intro x hx
      rw [slashRun_cons, Nat.add_assoc, Nat.add_comm 1, List.take_succ_cons, List.take_add] at hx
      rcases List.mem_cons.mp hx with rfl | hx
      · rfl
      · rcases List.mem_append.mp hx with hx | hx
        · exact stopsAtBlank_digitRun.chars rest x hx
        · exact hchars x hx
  | case2 t ht =>
    cases t with
    | nil =>
      rw [slashRun_nil]
      exact ⟨Nat.zero_le _,fun more => slashRun_of_ne (by decide) more,by simp⟩
    | cons c t =>
      have hc : c ≠ '/' := fun hc => ht t (by rw [hc])
      refine ⟨?_,?_,?_⟩
      · rw [slashRun_of_ne hc]
        exact Nat.zero_le _
      · intro more
        rw [List.cons_append, slashRun_of_ne hc, slashRun_of_ne hc]
      · intro x hx
        rw [slashRun_of_ne hc] at hx
        simp at hx

theorem stopsAtBlank_slashRun : StopsAtBlank slashRun where
  le t := (slashRun_spec t).1
  append t := (slashRun_spec t).2.1
  chars t := (slashRun_spec t).2.2

theorem stopsAtBlank_lengthRun : StopsAtBlank lengthRun :=
  stopsAtBlank_digitRun.andThen stopsAtBlank_slashRun

theorem stopsAtBlank_noteTail : StopsAtBlank noteTail :=
  (stopsAtBlank_runLength (p := WrittenNote.isOctaveMark) (by decide)
    fun x hx => by simp [isTailChar, hx]).andThen stopsAtBlank_lengthRun

/-! ## Tokens of plain music -/

/-- Characters of the notes and rests of plain music. -/
def isNoteChar (c : Char) : Bool :=
  isNoteLetter c || isTailChar c || c ∈ ['^', '_', '=', 'z', 'x', 'Z', 'X']

def barLines : List Text := [['|'], ['|', '|'], ['|', ']'], ['[', '|']]

/-- The characters that the token takes at the front of a text. -/
def lexeme (c : Char) (rest : Text) : Text := c :: rest.take (scan c rest).2

/-- What is known of a token of plain music other than a blank. -/
structure PlainToken (c : Char) (rest : Text) : Prop where
  kind : (scan c rest).1 ∈ [.note, .rest, .multiRest, .bar]
  le : (scan c rest).2 ≤ rest.length
  append (more : Text) : scan c (rest ++ ' ' :: more) = scan c rest
  notDigit : c.isDigit = false
  chars : lexeme c rest ∈ barLines ∨ ∀ x ∈ lexeme c rest, isNoteChar x = true

/-- A scan that takes the rest of a note or rest. -/
theorem StopsAtBlank.plainToken {f : Text → Nat} {kind : TokenKind} {c : Char} (hf : StopsAtBlank f)
    (hkind : kind ∈ [.note, .rest, .multiRest]) (hscan : ∀ rest, scan c rest = (kind,f rest))
    (hdigit : c.isDigit = false) (hc : isNoteChar c = true) (rest : Text) :
    PlainToken c rest where
  kind := by
    rw [hscan]
    exact List.mem_append_left [.bar] hkind
  le := by rw [hscan]; exact hf.le rest
  append more := by rw [hscan, hscan, hf.append]
  notDigit := hdigit
  chars := by
    apply Or.inr
    intro x hx
    rw [lexeme, hscan] at hx
    rcases List.mem_cons.mp hx with rfl | hx
    · exact hc
    · simp [isNoteChar, hf.chars rest x hx]

theorem eq_false_of_mem {p : TokenKind → Bool} {kinds : List TokenKind} {kind : TokenKind}
    (h : kind ∈ kinds) (hkinds : kinds.any p = false) : p kind = false := by
  rw [List.any_eq_false] at hkinds
  exact Bool.eq_false_iff.mpr (hkinds kind h)

theorem kind_scanQuote (t : Text) : (scanQuote t).1 ∈ [.chordSymbol, .unknown] := by
  unfold scanQuote
  split
  · exact List.mem_cons_self
  · exact List.mem_cons_of_mem _ List.mem_cons_self

theorem kind_scanDecoration (c : Char) (t : Text) :
    (scanDecoration c t).1 ∈ [.extendedDecoration, .unknown] := by
  unfold scanDecoration
  split
  · split
    · exact List.mem_cons_of_mem _ List.mem_cons_self
    · exact List.mem_cons_self
  · exact List.mem_cons_of_mem _ List.mem_cons_self

theorem kind_scanColon (t : Text) : (scanColon t).1 ∈ [.repeatEnd, .repeatBoth, .unknown] := by
  unfold scanColon
  split <;> simp

theorem kind_scanParenthesis (t : Text) : (scanParenthesis t).1 ∈ [.slurStart, .tuplet] := by
  unfold scanParenthesis
  dsimp only
  split
  · exact List.mem_cons_self
  · exact List.mem_cons_of_mem _ List.mem_cons_self

theorem scanBracket_plain {t : Text} (h : isPlainKind (scanBracket t).1 = true) :
    ∃ rest, t = '|' :: rest := by
  unfold scanBracket at h
  split at h
  · exact ⟨_,rfl⟩
  · split at h
    · split at h <;> cases h
    · split at h <;> cases h
  · split at h <;> cases h
  · cases h

theorem plainToken_bracket {rest : Text} (h : isPlainKind (scanBracket rest).1 = true) :
    PlainToken '[' rest := by
  have hscan : ∀ t, scan '[' ('|' :: t) = (.bar,1) := fun _ => rfl
  obtain ⟨t,rfl⟩ := scanBracket_plain h
  refine ⟨by rw [hscan]; decide,?_,?_,by decide,.inl ?_⟩
  · rw [hscan]
    simp
  · intro more
    rw [List.cons_append, hscan, hscan]
  · simp [lexeme, hscan, barLines]

theorem scanBar_of_ne {c : Char} (hcolon : c ≠ ':') (hbar : c ≠ '|') (hbracket : c ≠ ']')
    (t : Text) : scanBar (c :: t) = if c.isDigit then (.ending,1) else (.bar,0) := by
  unfold scanBar
  split <;> simp_all

theorem plainToken_bar {rest : Text} (h : isPlainKind (scanBar rest).1 = true) :
    PlainToken '|' rest := by
  have hscan : ∀ t, scan '|' t = scanBar t := fun _ => rfl
  cases rest with
  | nil => exact ⟨by decide,Nat.le_refl _,fun _ => rfl,by decide,.inl (by decide)⟩
  | cons c t =>
    have hbar : (c = '|' ∨ c = ']') ∧ (∀ t, scanBar (c :: t) = (.bar,1)) ∨
        ∀ t, scanBar (c :: t) = (.bar,0) := by
      by_cases hcolon : c = ':'
      · subst hcolon
        cases h
      · by_cases hdouble : c = '|' ∨ c = ']'
        · refine .inl ⟨hdouble,?_⟩
          rcases hdouble with rfl | rfl <;> exact fun _ => rfl
        · obtain ⟨hbar,hbracket⟩ := not_or.mp hdouble
          rw [scanBar_of_ne hcolon hbar hbracket] at h
          by_cases hdigit : c.isDigit = true
          · rw [if_pos hdigit] at h
            cases h
          · exact .inr fun t => by rw [scanBar_of_ne hcolon hbar hbracket, if_neg hdigit]
    rcases hbar with ⟨hc,hbar⟩ | hbar
    · refine ⟨by rw [hscan, hbar]; decide,by rw [hscan, hbar]; simp,fun more => ?_,by decide,
        .inl ?_⟩
      · rw [List.cons_append, hscan, hscan, hbar, hbar]
      · rcases hc with rfl | rfl <;> simp [lexeme, hscan, hbar, barLines]
    · refine ⟨by rw [hscan, hbar]; decide,by rw [hscan, hbar]; simp,fun more => ?_,by decide,
        .inl ?_⟩
      · rw [List.cons_append, hscan, hscan, hbar, hbar]
      · simp [lexeme, hscan, hbar, barLines]

/-- A letter after the marks of an accidental. -/
theorem scanLetter_plain {marks : Nat} {t : Text} (h : isPlainKind (scanLetter marks t).1 = true) :
    ∃ c rest, t = c :: rest ∧ isNoteLetter c = true := by
  cases t with
  | nil => cases h
  | cons c rest =>
    unfold scanLetter at h
    dsimp only at h
    split at h
    · next hc => exact ⟨c,rest,rfl,hc⟩
    · cases h

theorem plainToken_letter {c d : Char} {marks rest : Text} (hd : isNoteLetter d = true)
    (hscan : ∀ t, scan c (marks ++ d :: t) = (.note,marks.length + 1 + noteTail t))
    (hdigit : c.isDigit = false) (hc : ∀ x ∈ c :: marks, isNoteChar x = true) :
    PlainToken c (marks ++ d :: rest) where
  kind := by rw [hscan]; exact List.mem_cons_self
  le := by
    have := stopsAtBlank_noteTail.le rest
    rw [hscan, List.length_append, List.length_cons]
    dsimp only
    omega
  append more := by
    rw [List.append_assoc, List.cons_append, hscan, hscan, stopsAtBlank_noteTail.append]
  notDigit := hdigit
  chars := by
    apply Or.inr
    intro x hx
    have htake : (marks ++ d :: rest).take (marks.length + 1 + noteTail rest) =
        marks ++ d :: rest.take (noteTail rest) := by
      rw [Nat.add_assoc, List.take_length_add_append, Nat.add_comm 1, List.take_succ_cons]
    rw [lexeme, hscan, htake, ← List.cons_append] at hx
    rcases List.mem_append.mp hx with hx | hx
    · exact hc x hx
    · rcases List.mem_cons.mp hx with rfl | hx
      · simp [isNoteChar, hd]
      · simp [isNoteChar, stopsAtBlank_noteTail.chars rest x hx]

/-- Marks that no token of plain music starts with. -/
def otherMarks : List Char :=
  ['%', '\\', '"', '!', '+', ']', ':', '(', ')', '\x7b', '\x7d', '-', '>', '<']

def markChars : List Char := otherMarks ++ ['[', '|', '^', '_', '=']

theorem isPlainKind_otherMarks {c : Char} (hc : c ∈ otherMarks) (rest : Text) :
    isPlainKind (scan c rest).1 = false := by
  simp only [otherMarks, List.mem_cons, List.not_mem_nil, or_false] at hc
  rcases hc with rfl | rfl | rfl | rfl | rfl | rfl | rfl | rfl | rfl | rfl | rfl | rfl | rfl | rfl
  case inr.inr.inl => exact eq_false_of_mem (kind_scanQuote rest) rfl
  case inr.inr.inr.inl => exact eq_false_of_mem (kind_scanDecoration '!' rest) rfl
  case inr.inr.inr.inr.inl => exact eq_false_of_mem (kind_scanDecoration '+' rest) rfl
  case inr.inr.inr.inr.inr.inr.inl => exact eq_false_of_mem (kind_scanColon rest) rfl
  case inr.inr.inr.inr.inr.inr.inr.inl => exact eq_false_of_mem (kind_scanParenthesis rest) rfl
  all_goals rfl

theorem scan_of_notMem {c : Char} (hfiller : isFiller c = false) (hc : c ∉ markChars)
    (rest : Text) :
    scan c rest =
      if isNoteLetter c then (.note, noteTail rest)
      else if c = 'z' ∨ c = 'x' then (.rest, lengthRun rest)
      else if c = 'Z' ∨ c = 'X' then (.multiRest, digitRun rest)
      else if c ∈ decorationMarks then (.decoration, 0)
      else (.unknown, 0) := by
  simp only [markChars, otherMarks, List.cons_append, List.nil_append, List.mem_cons,
    List.not_mem_nil, or_false, not_or] at hc
  simp [scan, hfiller, hc]

theorem not_isDigit_of_isNoteLetter {c : Char} (h : isNoteLetter c = true) : c.isDigit = false := by
  by_contra hdigit
  simp only [isNoteLetter, Char.isDigit, Bool.or_eq_true, Bool.and_eq_true, decide_eq_true_eq,
    Char.le_def, UInt32.le_iff_toNat_le, Bool.not_eq_false, ge_iff_le] at h hdigit
  obtain ⟨-,hdigit⟩ := hdigit
  have hnine : ('9' : Char).val.toNat < ('A' : Char).val.toNat := by decide
  have hcapital : ('A' : Char).val.toNat < ('a' : Char).val.toNat := by decide
  rcases h with ⟨h,-⟩ | ⟨h,-⟩
  · exact absurd (hnine.trans_le h) (not_lt.mpr hdigit)
  · exact absurd ((hnine.trans hcapital).trans_le h) (not_lt.mpr hdigit)

theorem plainToken_accidental {c : Char} {rest : Text} (hc : c = '^' ∨ c = '_')
    (h : isPlainKind (scanAccidental c rest).1 = true) : PlainToken c rest := by
  have hscan : ∀ t, scan c t = scanAccidental c t := by
    rcases hc with rfl | rfl <;> exact fun _ => rfl
  have hdigit : c.isDigit = false := by rcases hc with rfl | rfl <;> decide
  have hchar : isNoteChar c = true := by rcases hc with rfl | rfl <;> decide
  cases rest with
  | nil => cases h
  | cons d t =>
    unfold scanAccidental at h
    dsimp only at h
    split at h
    · next hd =>
      subst hd
      obtain ⟨e,rest,rfl,he⟩ := scanLetter_plain h
      refine show PlainToken c ([c] ++ e :: rest) from
        plainToken_letter he (fun t => ?_) hdigit (by simp [hchar])
      rw [hscan, List.singleton_append, scanAccidental, if_pos rfl, scanLetter, if_pos he]
      rfl
    · next hd =>
      obtain ⟨e,rest,heq,he⟩ := scanLetter_plain h
      obtain ⟨rfl,rfl⟩ := List.cons.inj heq
      refine show PlainToken c ([] ++ d :: t) from
        plainToken_letter he (fun t => ?_) hdigit (by simp [hchar])
      rw [hscan, List.nil_append, scanAccidental, if_neg hd, scanLetter, if_pos he]
      rfl

theorem plainToken_of_isPlainKind {c : Char} {rest : Text} (hfiller : isFiller c = false)
    (h : isPlainKind (scan c rest).1 = true) : PlainToken c rest := by
  by_cases hc : c ∈ markChars
  · have hother : c ∉ otherMarks := fun hother => by
      rw [isPlainKind_otherMarks hother] at h
      cases h
    have hc := (List.mem_append.mp hc).resolve_left hother
    simp only [List.mem_cons, List.not_mem_nil, or_false] at hc
    rcases hc with rfl | rfl | rfl | rfl | rfl
    · exact plainToken_bracket h
    · exact plainToken_bar h
    · exact plainToken_accidental (.inl rfl) h
    · exact plainToken_accidental (.inr rfl) h
    · obtain ⟨e,rest,rfl,he⟩ := scanLetter_plain h
      refine show PlainToken '=' ([] ++ e :: rest) from
        plainToken_letter he (fun t => ?_) (by decide) (by simp [isNoteChar])
      exact if_pos he
  · have hscan := scan_of_notMem hfiller hc
    rw [hscan] at h
    by_cases hletter : isNoteLetter c = true
    · simp only [if_pos hletter] at hscan
      exact stopsAtBlank_noteTail.plainToken (by decide) hscan (not_isDigit_of_isNoteLetter hletter)
        (by simp [isNoteChar, hletter]) rest
    · simp only [if_neg hletter] at h hscan
      by_cases hrest : c = 'z' ∨ c = 'x'
      · simp only [if_pos hrest] at hscan
        refine stopsAtBlank_lengthRun.plainToken (by decide) hscan ?_ ?_ rest <;>
          rcases hrest with rfl | rfl <;> decide
      · simp only [if_neg hrest] at h hscan
        by_cases hmulti : c = 'Z' ∨ c = 'X'
        · simp only [if_pos hmulti] at hscan
          refine stopsAtBlank_digitRun.plainToken (by decide) hscan ?_ ?_ rest <;>
            rcases hmulti with rfl | rfl <;> decide
        · rw [if_neg hmulti] at h
          split at h <;> cases h

/-! ## Symbols -/

theorem musicTokens_cons (line column : Nat) (c : Char) (rest : Text) :
    musicTokens line column (c :: rest) =
      ofLexeme (scan c rest).1 (lexeme c rest) line column ::
        musicTokens line (column + 1 + (scan c rest).2) (rest.drop (scan c rest).2) := by
  rw [musicTokens]
  rfl

theorem kind_ofLexeme (kind : TokenKind) (lexeme : Text) (line column : Nat) :
    (ofLexeme kind lexeme line column).kind = kind := by
  unfold ofLexeme
  split <;> rfl

theorem text_ofLexeme (kind : TokenKind) (lexeme : Text) (line column line' column' : Nat) :
    (ofLexeme kind lexeme line column).text = (ofLexeme kind lexeme line' column').text := by
  unfold ofLexeme
  split <;> rfl

/-- Where a text stands makes no difference to its tokens otherwise. -/
theorem signs_musicTokens (line column line' column' : Nat) (t : Text) :
    signs (musicTokens line column t) = signs (musicTokens line' column' t) := by
  induction column, t using musicTokens.induct generalizing column' with
  | case1 column => rw [musicTokens, musicTokens]
  | case2 column c rest kind more hscan ih =>
    unfold signs at ih ⊢
    rw [musicTokens_cons, musicTokens_cons, hscan, List.filter_cons, List.filter_cons,
      kind_ofLexeme, kind_ofLexeme]
    split
    · rw [List.map_cons, List.map_cons, kind_ofLexeme, kind_ofLexeme,
        text_ofLexeme _ _ line column line' column', ih]
    · exact ih _

theorem symbols_nil : symbols [] = [] := by
  rw [symbols, musicTokens]
  rfl

theorem symbols_token {c : Char} {rest : Text} (h : PlainToken c rest) :
    symbols (c :: rest) =
      ((scan c rest).1,lexeme c rest) :: symbols (rest.drop (scan c rest).2) := by
  have hkind := h.kind
  have hspace : ((scan c rest).1 != .space) = true := by
    revert hkind
    generalize (scan c rest).1 = kind
    decide +revert
  have htext : (ofLexeme (scan c rest).1 (lexeme c rest) 1 1).text = lexeme c rest := by
    revert hkind
    generalize (scan c rest).1 = kind
    simp only [List.mem_cons, List.not_mem_nil, or_false]
    rintro (rfl | rfl | rfl | rfl) <;> rfl
  unfold symbols signs
  rw [musicTokens_cons, List.filter_cons, kind_ofLexeme, if_pos hspace, List.map_cons,
    kind_ofLexeme, htext]
  exact congrArg _ (signs_musicTokens _ _ _ _ _)

theorem symbols_of_filler {c : Char} (hc : isFiller c = true) (rest : Text) :
    symbols (c :: rest) = symbols (rest.dropWhile isFiller) := by
  have hscan : scan c rest = (.space,runLength isFiller rest) := if_pos hc
  have hdrop : rest.drop (runLength isFiller rest) = rest.dropWhile isFiller := by
    conv_lhs => arg 2; rw [← List.takeWhile_append_dropWhile (p := isFiller) (l := rest)]
    exact List.drop_left
  unfold symbols
  rw [musicTokens_cons, hscan, hdrop]
  exact signs_musicTokens _ _ _ _ _

/-- A blank is no part of any symbol. -/
theorem symbols_filler {c : Char} (hc : isFiller c = true) (rest : Text) :
    symbols (c :: rest) = symbols rest := by
  rw [symbols_of_filler hc]
  cases rest with
  | nil => rfl
  | cons d rest =>
    rw [List.dropWhile_cons]
    split
    · next hd => rw [symbols_of_filler hd]
    · rfl

theorem plainMusic_iff (t : Text) :
    PlainMusic t ↔ ∀ p ∈ symbols t, isPlainKind p.1 = true := by
  constructor
  · intro h p hp
    obtain ⟨token,htoken,rfl⟩ := List.mem_map.mp hp
    exact h token (List.mem_filter.mp htoken).1
  · intro h token htoken
    by_cases hspace : token.kind = .space
    · rw [hspace]
      rfl
    · exact h (token.kind,token.text) (List.mem_map.mpr
        ⟨token,List.mem_filter.mpr ⟨htoken,bne_iff_ne.mpr hspace⟩,rfl⟩)

/-- Plain music is read blank by blank and token by token. -/
theorem PlainMusic.induct {motive : Text → Prop} (nil : motive [])
    (blank : ∀ c rest, isFiller c = true → motive rest → motive (c :: rest))
    (token : ∀ c rest, PlainToken c rest → motive (rest.drop (scan c rest).2) →
      motive (c :: rest)) {t : Text} (h : PlainMusic t) : motive t := by
  induction hn : t.length using Nat.strong_induction_on generalizing t with
  | _ n ih =>
    cases t with
    | nil => exact nil
    | cons c rest =>
      rw [List.length_cons] at hn
      by_cases hc : isFiller c = true
      · have hrest : PlainMusic rest := by
          rw [plainMusic_iff, ← symbols_filler hc]
          exact (plainMusic_iff _).mp h
        exact blank c rest hc (ih rest.length (by omega) hrest rfl)
      · have hfirst : isPlainKind (scan c rest).1 = true := by
          have hmem := h _ (musicTokens_cons 1 1 c rest ▸ List.mem_cons_self)
          rwa [kind_ofLexeme] at hmem
        have htoken := plainToken_of_isPlainKind (by simpa using hc) hfirst
        have hrest : PlainMusic (rest.drop (scan c rest).2) := by
          rw [plainMusic_iff] at h ⊢
          rw [symbols_token htoken] at h
          exact fun p hp => h p (List.mem_cons_of_mem _ hp)
        have hlt : (rest.drop (scan c rest).2).length < n := by
          rw [List.length_drop]
          omega
        exact token c rest htoken (ih _ hlt hrest rfl)

theorem lexeme_append_drop (c : Char) (rest : Text) :
    lexeme c rest ++ rest.drop (scan c rest).2 = c :: rest := by
  rw [lexeme, List.cons_append, List.take_append_drop]

/-- A token of plain music is the same in front of a blank. -/
theorem PlainToken.extend {c : Char} {rest : Text} (h : PlainToken c rest) (more : Text) :
    PlainToken c (rest ++ ' ' :: more) ∧ lexeme c (rest ++ ' ' :: more) = lexeme c rest := by
  have hlexeme : lexeme c (rest ++ ' ' :: more) = lexeme c rest := by
    rw [lexeme, lexeme, h.append, List.take_append_of_le_length h.le]
  refine ⟨⟨?_,?_,?_,h.notDigit,?_⟩,hlexeme⟩
  · rw [h.append]
    exact h.kind
  · rw [h.append, List.length_append]
    exact Nat.le_add_right_of_le h.le
  · intro more'
    rw [List.append_assoc, List.cons_append, h.append, h.append]
  · rw [hlexeme]
    exact h.chars

/-- Of plain music in front of a blank, the symbols stay as they are. -/
theorem PlainMusic.symbols_append {t : Text} (h : PlainMusic t) (more : Text) :
    symbols (t ++ ' ' :: more) = symbols t ++ symbols more := by
  refine PlainMusic.induct
    (motive := fun t => symbols (t ++ ' ' :: more) = symbols t ++ symbols more) ?_ ?_ ?_ h
  · rw [symbols_nil]
    exact symbols_filler (by decide) more
  · intro c rest hc ih
    rw [List.cons_append, symbols_filler hc, symbols_filler hc, ih]
  · intro c rest htoken ih
    obtain ⟨hextended,hlexeme⟩ := htoken.extend more
    rw [List.cons_append, symbols_token htoken, symbols_token hextended, hlexeme, htoken.append,
      List.drop_append_of_le_length htoken.le, ih, List.cons_append]

/-! ## Characters of plain music -/

/-- No number of an ending follows a bar line or a bracket. -/
theorem PlainMusic.freeOf_one {t : Text} (h : PlainMusic t) {a : Char} (ha : a = '|' ∨ a = '[') :
    Text.FreeOf a '1' t := by
  refine (PlainMusic.induct (motive := fun t => Text.FreeOf a '1' t ∧ t.head? ≠ some '1')
    ?_ ?_ ?_ h).1
  · exact ⟨Text.freeOf_nil,by simp⟩
  · intro c rest hc ih
    have hne : c ≠ a := by
      rintro rfl
      rcases ha with rfl | rfl <;> cases hc
    have hone : c ≠ '1' := by
      rintro rfl
      cases hc
    exact ⟨Text.freeOf_cons.mpr ⟨fun hca => hne hca.1,ih.1⟩,by simpa using hone⟩
  · intro c rest htoken ih
    have hone : c ≠ '1' := by
      rintro rfl
      exact absurd htoken.notDigit (by decide)
    have hlexeme : Text.FreeOf a '1' (lexeme c rest) := by
      rcases htoken.chars with hbar | hnote
      · have hbars : ∀ bar ∈ barLines, '1' ∉ bar := by decide
        exact Text.freeOf_of_second_notMem (hbars _ hbar)
      · apply Text.freeOf_of_first_notMem
        intro hmem
        have := hnote a hmem
        rcases ha with rfl | rfl <;> revert this <;> decide
    refine ⟨?_,by simpa using hone⟩
    rw [← lexeme_append_drop c rest]
    exact Text.freeOf_append.mpr ⟨hlexeme,ih.1,fun hseam => ih.2 hseam.2⟩

/-- Plain music has none of the characters that mark repeats, fields, comments and lines. -/
theorem PlainMusic.notMem {t : Text} (h : PlainMusic t) {x : Char}
    (hx : x ∈ [':', 'V', '%', '\n', '\r']) : x ∉ t := by
  obtain ⟨hfiller,hnote,hbars⟩ :
      isFiller x = false ∧ isNoteChar x = false ∧ ∀ bar ∈ barLines, x ∉ bar := by
    simp only [List.mem_cons, List.not_mem_nil, or_false] at hx
    rcases hx with rfl | rfl | rfl | rfl | rfl <;> decide
  refine PlainMusic.induct (motive := fun t => x ∉ t) ?_ ?_ ?_ h
  · simp
  · intro c rest hc ih hmem
    rcases List.mem_cons.mp hmem with rfl | hmem
    · exact absurd hc (by simp [hfiller])
    · exact ih hmem
  · intro c rest htoken ih hmem
    rw [← lexeme_append_drop c rest] at hmem
    rcases List.mem_append.mp hmem with hmem | hmem
    · rcases htoken.chars with hbar | hall
      · exact hbars _ hbar hmem
      · exact absurd (hall x hmem) (by simp [hnote])
    · exact ih hmem

end AbcTune.Token
