import AbcTune.Proofs.Token.LengthText
import AbcTune.Proofs.Token.Line
import AbcTune.Proofs.Token.TupletText

/-! # Texts that are cut

A rest, a bar rest and the end of a chord are read behind their first character, and a named
decoration between its delimiters. The text of each of these tokens, and of a tuplet, has the form
that its reader takes apart. The characters that are cut off are there and take one byte each, so
that cutting the bytes of the text cuts the same.
-/
namespace AbcTune.Token

variable {c : Char} {rest t : Text} {kind : TokenKind} {line : Nat} {token : Token}

/-! ## Forms -/

/-- The form of the text of a token, for the kinds of tokens whose texts are taken apart. -/
def HasForm (kind : TokenKind) (text : Text) : Prop :=
  match kind with
  | .rest => ∃ (c : Char) (l : LengthText), (c = 'z' ∨ c = 'x') ∧ text = c :: l.text
  | .multiRest => ∃ (c : Char) (digits : Text), (c = 'Z' ∨ c = 'X') ∧
      (∀ d ∈ digits, d.isDigit = true) ∧ text = c :: digits
  | .chordEnd => ∃ l : LengthText, text = ']' :: l.text
  | .tuplet => ∃ g : TupletText, text = g.text
  | .extendedDecoration => ∃ (c : Char) (name : Text), (c = '!' ∨ c = '+') ∧ name ≠ [] ∧
      text = c :: (name ++ [c])
  | _ => True

/-- Kinds of tokens whose texts have a form. -/
def isFormKind : TokenKind → Bool
  | .rest | .multiRest | .chordEnd | .tuplet | .extendedDecoration => true
  | _ => false

theorem isLineKind_of_isFormKind (h : isFormKind kind = true) : isLineKind kind = false := by
  cases kind <;> first | rfl | cases h

theorem hasForm_of_not_isFormKind (h : isFormKind kind = false) (text : Text) :
    HasForm kind text := by
  cases kind
  case rest | multiRest | chordEnd | tuplet | extendedDecoration => cases h
  all_goals trivial

theorem isFormKind_scanBracket (t : Text) : isFormKind (scanBracket t).1 = false := by
  rcases kind_scanBracket t with ⟨name,hkind⟩ | hkind
  · rw [hkind]
    rfl
  · exact eq_false_of_mem hkind rfl

/-- A named decoration ends with the delimiter that it starts with, and has a name. -/
theorem hasForm_scanDecoration (hc : c = '!' ∨ c = '+') (rest : Text) :
    HasForm (scanDecoration c rest).1 (c :: rest.take (scanDecoration c rest).2) := by
  unfold scanDecoration
  by_cases hmem : c ∈ rest
  · obtain ⟨name,after,rfl,hname⟩ := List.eq_append_cons_of_mem hmem
    rw [Text.cutAt_append hname]
    dsimp only
    split
    · trivial
    · next hempty =>
      have hne : name ≠ [] := by
        rintro rfl
        exact hempty rfl
      have htake : (name ++ c :: after).take (name.length + 1) = name ++ [c] := by
        rw [List.take_append, List.take_of_length_le (Nat.le_succ _), Nat.add_sub_cancel_left]
        rfl
      exact ⟨c,name,hc,hne,congrArg (c :: ·) htake⟩
  · rw [Text.cutAt_of_notMem hmem]
    trivial

theorem hasForm_scanParenthesis (rest : Text) :
    HasForm (scanParenthesis rest).1 ('(' :: rest.take (scanParenthesis rest).2) := by
  have hkind := kind_scanParenthesis rest
  simp only [List.mem_cons, List.not_mem_nil, or_false] at hkind
  rcases hkind with hkind | hkind
  · rw [hkind]
    trivial
  · have hform := exists_tupletText hkind
    rw [hkind]
    exact hform

theorem hasForm_scan (c : Char) (rest : Text) : HasForm (scan c rest).1 (lexeme c rest) := by
  have hplain {x : TokenKind × Nat} (h : isFormKind x.1 = false) :
      HasForm x.1 (c :: rest.take x.2) := hasForm_of_not_isFormKind h _
  apply scan_cases (P := fun x => HasForm x.1 (c :: rest.take x.2))
  case single => exact fun kind hkind more => hplain (eq_false_of_mem hkind rfl)
  case comment => exact fun _ => hplain rfl
  case quote => exact hplain (eq_false_of_mem (kind_scanQuote rest) rfl)
  case named => exact fun hc => hasForm_scanDecoration hc rest
  case bracket => exact fun _ => hplain (isFormKind_scanBracket rest)
  case bar => exact hplain (eq_false_of_mem (kind_scanBar rest) rfl)
  case colon => exact hplain (eq_false_of_mem (kind_scanColon rest) rfl)
  case parenthesis =>
    rintro rfl
    exact hasForm_scanParenthesis rest
  case chordEnd =>
    rintro rfl
    obtain ⟨l,hl⟩ := exists_lengthText rest
    exact ⟨l,congrArg (']' :: ·) hl⟩
  case rest =>
    intro hc
    obtain ⟨l,hl⟩ := exists_lengthText rest
    exact ⟨c,l,hc,congrArg (c :: ·) hl⟩
  case multiRest =>
    exact fun hc => ⟨c,rest.takeWhile Char.isDigit,hc,fun _ hd => List.mem_takeWhile_imp hd,
      congrArg (c :: ·) (take_runLength _ rest)⟩
  case accidental => exact fun _ => hplain (eq_false_of_mem (kind_scanAccidental c rest) rfl)
  case natural => exact fun _ => hplain (eq_false_of_mem (kind_scanLetter 0 rest) rfl)
  case letter => exact fun _ => hplain rfl

theorem hasForm_of_mem_tokenize (h : token ∈ tokenize t line) :
    HasForm token.kind token.text := by
  by_cases hkind : isFormKind token.kind = true
  · obtain ⟨c,rest,column,rfl⟩ := exists_scan_of_mem_tokenize h (isLineKind_of_isFormKind hkind)
    have hform := hasForm_scan c rest
    rw [kind_ofLexeme] at hkind ⊢
    unfold ofLexeme
    split
    · next name heq =>
      rw [heq] at hkind
      cases hkind
    · exact hform
  · exact hasForm_of_not_isFormKind (Bool.not_eq_true _ ▸ hkind) _

/-! ## Cutting -/

/-- The text of a token can be cut where a token of its kind is cut. -/
def IsCut (kind : TokenKind) (text : Text) : Prop :=
  match kind with
  | .rest | .multiRest | .chordEnd => ∃ c rest, text = c :: rest ∧ c.utf8Size = 1
  | .extendedDecoration => ∃ c name, text = c :: (name ++ [c]) ∧ c.utf8Size = 1
  | _ => True

theorem HasForm.isCut {text : Text} (h : HasForm kind text) : IsCut kind text := by
  cases kind
  case rest =>
    obtain ⟨c,l,hc,htext⟩ := h
    exact ⟨c,l.text,htext,by rcases hc with rfl | rfl <;> rfl⟩
  case multiRest =>
    obtain ⟨c,digits,hc,-,htext⟩ := h
    exact ⟨c,digits,htext,by rcases hc with rfl | rfl <;> rfl⟩
  case chordEnd =>
    obtain ⟨l,htext⟩ := h
    exact ⟨']',l.text,htext,rfl⟩
  case extendedDecoration =>
    obtain ⟨c,name,hc,-,htext⟩ := h
    exact ⟨c,name,htext,by rcases hc with rfl | rfl <;> rfl⟩
  all_goals trivial

theorem isCut_of_mem_tokenize (h : token ∈ tokenize t line) : IsCut token.kind token.text :=
  (hasForm_of_mem_tokenize h).isCut

end AbcTune.Token
