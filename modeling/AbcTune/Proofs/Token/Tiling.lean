import AbcTune.Proofs.Token.Line

/-! # Tokens tile a line

The tokens of a line of music stand one behind another without a gap. Each takes a slice of the
line that is not empty, so that reading always gets on, and its column counts the characters before
the slice. A token is its slice, but for a field in brackets, of which only the value is kept.
-/
namespace AbcTune.Token

variable {c name : Char} {t rest : Text} {line : Nat}

/-- What a token keeps of the slice of a line that it takes. -/
def HasText (slice : Text) (token : Token) : Prop :=
  match token.kind with
  | .inlineField name => ∃ value, slice = ['[', name, ':'] ++ value ++ [']'] ∧ ']' ∉ value ∧
      token.text = Text.trim value
  | _ => token.text = slice

/-! ## Fields in brackets -/

/-- The kind of a field in brackets. -/
def isBracketKind : TokenKind → Bool
  | .inlineField _ => true
  | _ => false

/-- A field in brackets goes up to the first bracket that closes. -/
theorem scanBracket_inlineField (h : (scanBracket t).1 = .inlineField name) :
    ∃ value after, t = [name, ':'] ++ value ++ ']' :: after ∧ ']' ∉ value ∧
      (scanBracket t).2 = value.length + 3 := by
  unfold scanBracket at h ⊢
  split at h
  · cases h
  · next first next more hbar =>
    split at h
    · next hfield =>
      obtain ⟨rfl,halpha⟩ := hfield
      by_cases hclose : ']' ∈ first :: ':' :: more
      · have hfirst : first ≠ ']' := by
          rintro rfl
          cases halpha
        have hmore : ']' ∈ more := by simpa [hfirst.symm] using hclose
        obtain ⟨value,after,rfl,hvalue⟩ := List.eq_append_cons_of_mem hmore
        have hopen : ']' ∉ first :: ':' :: value := by simp [hfirst.symm, hvalue]
        have hcut : Text.cutAt ']' (first :: ':' :: (value ++ ']' :: after)) =
            some (first :: ':' :: value,after) := Text.cutAt_append hopen after
        rw [hcut] at h ⊢
        cases h
        refine ⟨value,after,by simp,hvalue,?_⟩
        simp [halpha]
      · rw [Text.cutAt_of_notMem hclose] at h
        cases h
    · split at h <;> cases h
  · split at h <;> cases h
  · cases h

theorem scan_inlineField (h : (scan c rest).1 = .inlineField name) :
    c = '[' ∧ ∃ value after, rest = [name, ':'] ++ value ++ ']' :: after ∧ ']' ∉ value ∧
      (scan c rest).2 = value.length + 3 := by
  have hc : c = '[' := by
    by_contra hc
    have hnone : isBracketKind (scan c rest).1 = false := by
      apply scan_cases (P := fun x => isBracketKind x.1 = false)
      case single => exact fun kind hkind _ => eq_false_of_mem hkind rfl
      case comment => exact fun _ => rfl
      case quote => exact eq_false_of_mem (kind_scanQuote rest) rfl
      case named => exact fun _ => eq_false_of_mem (kind_scanDecoration c rest) rfl
      case bracket => exact fun h => absurd h hc
      case bar => exact eq_false_of_mem (kind_scanBar rest) rfl
      case colon => exact eq_false_of_mem (kind_scanColon rest) rfl
      case parenthesis => exact fun _ => eq_false_of_mem (kind_scanParenthesis rest) rfl
      case chordEnd | rest | multiRest => exact fun _ => rfl
      case accidental => exact fun _ => eq_false_of_mem (kind_scanAccidental c rest) rfl
      case natural => exact fun _ => eq_false_of_mem (kind_scanLetter 0 rest) rfl
      case letter => exact fun _ => rfl
    rw [h] at hnone
    cases hnone
  subst hc
  exact ⟨rfl,scanBracket_inlineField h⟩

/-- A token keeps what it takes, and of a field in brackets the value. -/
theorem hasText_ofLexeme (c : Char) (rest : Text) (line column : Nat) :
    HasText (lexeme c rest) (ofLexeme (scan c rest).1 (lexeme c rest) line column) := by
  unfold HasText
  rw [kind_ofLexeme]
  split
  · next name hkind =>
    obtain ⟨rfl,value,after,rfl,hvalue,hsize⟩ := scan_inlineField hkind
    have hslice : lexeme '[' ([name, ':'] ++ value ++ ']' :: after) =
        ['[', name, ':'] ++ value ++ [']'] := by
      have htake : (value ++ ']' :: after).take (value.length + 1) = value ++ [']'] := by
        rw [List.take_length_add_append]
        rfl
      rw [lexeme, hsize]
      simpa using htake
    refine ⟨value,hslice,hvalue,?_⟩
    rw [hkind, hslice]
    change Text.trim (((['[', name, ':'] ++ value ++ [']']).drop 3).dropLast) = Text.trim value
    simp
  · next hkind =>
    unfold ofLexeme
    split
    · next name h => exact absurd h (hkind name)
    · rfl

/-! ## Lines -/

theorem musicTokens_tiles (line column : Nat) (t : Text) :
    ∃ slices : List Text, slices.flatten = t ∧ [] ∉ slices ∧
      slices.length = (musicTokens line column t).length ∧
      ∀ i slice token, slices[i]? = some slice →
        (musicTokens line column t)[i]? = some token → HasText slice token ∧ token.line = line ∧
          token.column = column + (slices.take i).flatten.length := by
  induction column, t using musicTokens.induct with
  | case1 column => exact ⟨[],rfl,List.not_mem_nil,by rw [musicTokens]; rfl,by simp⟩
  | case2 column c rest kind more hscan ih =>
    obtain ⟨slices,hflatten,hne,hlength,htokens⟩ := ih
    have hmore : more = (scan c rest).2 := by rw [hscan]
    subst hmore
    rw [musicTokens_cons]
    refine ⟨lexeme c rest :: slices,?_,?_,by simp [hlength],?_⟩
    · rw [List.flatten_cons, hflatten, lexeme_append_drop]
    · rw [List.mem_cons, not_or]
      exact ⟨(List.cons_ne_nil c _).symm,hne⟩
    · rintro (- | i) slice token hslice htoken
      · cases hslice
        cases htoken
        refine ⟨hasText_ofLexeme c rest line column,?_,?_⟩ <;>
          · unfold ofLexeme
            split <;> rfl
      · obtain ⟨htext,hline,hcolumn⟩ := htokens i slice token hslice htoken
        refine ⟨htext,hline,?_⟩
        -- a token behind this one starts where this one ends
        have hle : (scan c rest).2 ≤ rest.length := by
          by_contra hle
          rw [List.drop_eq_nil_of_le (Nat.le_of_not_le hle), musicTokens] at htoken
          cases htoken
        rw [hcolumn, List.take_succ_cons, List.flatten_cons, List.length_append, lexeme,
          List.length_cons, List.length_take, Nat.min_eq_left hle]
        omega

/-- What ends a line makes no difference to its being a field. -/
theorem isFieldLine_append (t : Text) {e : Text} (he : ∀ c ∈ e, isLineBreak c = true) :
    isFieldLine (t ++ e) = isFieldLine t := by
  cases e with
  | nil => rw [List.append_nil]
  | cons d e =>
    have hd : d ≠ ':' ∧ d ≠ '|' ∧ d.isAlpha = false := by
      have hbreak := he d List.mem_cons_self
      simp only [isLineBreak, Bool.or_eq_true, decide_eq_true_eq] at hbreak
      rcases hbreak with rfl | rfl <;> decide
    rcases t with _ | ⟨name, _ | ⟨c, _ | ⟨first,value⟩⟩⟩
    · rw [List.nil_append, isFieldLine.eq_def]
      split <;> simp_all [isFieldLine]
    · simp [isFieldLine, hd]
    · by_cases hc : c = ':'
      · subst hc
        have hcolon : (some d != some ':') = true := bne_iff_ne.mpr (by simp [hd])
        have hbar : (some d != some '|') = true := bne_iff_ne.mpr (by simp [hd])
        change (name.isAlpha && some d != some '|' && some d != some ':') =
          (name.isAlpha && true && true)
        rw [hcolon, hbar]
      · simp [isFieldLine, hc]
    · by_cases hc : c = ':'
      · subst hc
        simp [isFieldLine]
      · simp [isFieldLine, hc]

/-- The slices that the tokens of a line of music take are not empty, and in their order they are
the line without the line breaks at its end. Each token has the text of its slice, or the value of
it if it is a field in brackets, and the column behind all characters before it. -/
theorem tokenize_tiles (hpercent : t.head? ≠ some '%') (hfield : isFieldLine t = false)
    (line : Nat) :
    ∃ slices : List Text, slices.flatten = dropLineBreaks t ∧ [] ∉ slices ∧
      slices.length = (tokenize t line).length ∧
      ∀ i slice token, slices[i]? = some slice → (tokenize t line)[i]? = some token →
        HasText slice token ∧ token.line = line ∧
          token.column = 1 + (slices.take i).flatten.length := by
  obtain ⟨e,ht,he⟩ := eq_dropLineBreaks_append t
  have hfirst : (dropLineBreaks t).head? ≠ some '%' := by
    intro hhead
    rw [ht, List.head?_append, hhead] at hpercent
    exact hpercent rfl
  have hmusic : isFieldLine (dropLineBreaks t) = false := by
    rwa [ht, isFieldLine_append _ he] at hfield
  rw [tokenize, ofLine_music hfirst hmusic]
  exact musicTokens_tiles line 1 _

/-- A quotation, a note, a field in brackets, a named decoration, a note, and a quotation that stays
open, in characters of several bytes. -/
theorem tokenize_tiles_unicode :
    "\"ü\"C[V: Ä ]!π!d\"€ \n".toList.head? ≠ some '%' ∧
      isFieldLine "\"ü\"C[V: Ä ]!π!d\"€ \n".toList = false ∧
      (tokenize "\"ü\"C[V: Ä ]!π!d\"€ \n".toList 7).map (·.column) = [1, 4, 5, 12, 15, 16] ∧
      ∃ slices : List Text, slices.flatten = "\"ü\"C[V: Ä ]!π!d\"€ ".toList ∧ [] ∉ slices ∧
        slices.length = 6 ∧
        ∀ i slice token, slices[i]? = some slice →
          (tokenize "\"ü\"C[V: Ä ]!π!d\"€ \n".toList 7)[i]? = some token →
            HasText slice token ∧ token.line = 7 ∧
              token.column = 1 + (slices.take i).flatten.length := by
  have hpercent : "\"ü\"C[V: Ä ]!π!d\"€ \n".toList.head? ≠ some '%' := by decide
  have hfield : isFieldLine "\"ü\"C[V: Ä ]!π!d\"€ \n".toList = false := by decide
  refine ⟨hpercent,hfield,by decide +kernel,?_⟩
  obtain ⟨slices,hflatten,hne,hlength,htokens⟩ := tokenize_tiles hpercent hfield 7
  exact ⟨slices,hflatten.trans (by decide +kernel),hne,hlength.trans (by decide +kernel),htokens⟩

end AbcTune.Token
