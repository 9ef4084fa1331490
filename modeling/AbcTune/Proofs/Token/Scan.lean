import AbcTune.Token.Lexer

/-! # Scans by what they start with

A token is told by its first character. Most characters give a token of one kind, and the others
are told apart by what follows them; what holds of each of these scans holds of every token.
-/
namespace AbcTune.Token

theorem kind_scanLetter (marks : Nat) (t : Text) :
    (scanLetter marks t).1 ∈ [.note, .unknown] := by
  unfold scanLetter
  split
  · split
    · exact List.mem_cons_self
    · exact List.mem_cons_of_mem _ List.mem_cons_self
  · exact List.mem_cons_of_mem _ List.mem_cons_self

theorem kind_scanAccidental (c : Char) (t : Text) :
    (scanAccidental c t).1 ∈ [.note, .unknown] := by
  unfold scanAccidental
  split
  · split <;> exact kind_scanLetter _ _
  · exact List.mem_cons_of_mem _ List.mem_cons_self

theorem kind_scanBar (t : Text) : (scanBar t).1 ∈ [.repeatStart, .bar, .ending] := by
  unfold scanBar
  split
  case h_4 => split <;> simp
  all_goals simp

theorem kind_scanBracket (t : Text) : (∃ name, (scanBracket t).1 = .inlineField name) ∨
    (scanBracket t).1 ∈ [.bar, .unknown, .ending, .chordStart] := by
  unfold scanBracket
  split
  · exact .inr (by decide)
  · split
    · split
      · exact .inl ⟨_,rfl⟩
      · exact .inr (by decide)
    · split <;> exact .inr (by decide)
  · split <;> exact .inr (by decide)
  · exact .inr (by decide)

/-- Kinds that a first character alone tells, of tokens that neither are read behind it nor end
the line. -/
def singleKinds : List TokenKind :=
  [.space, .continuation, .slurEnd, .graceStart, .graceEnd, .tie, .brokenRhythm, .decoration,
    .unknown]

theorem scan_cases {P : TokenKind × Nat → Prop} (c : Char) (t : Text)
    (single : ∀ kind ∈ singleKinds, ∀ more, P (kind,more))
    (comment : c = '%' → P (.comment,t.length))
    (quote : P (scanQuote t))
    (named : c = '!' ∨ c = '+' → P (scanDecoration c t))
    (bracket : c = '[' → P (scanBracket t))
    (bar : P (scanBar t))
    (colon : P (scanColon t))
    (parenthesis : c = '(' → P (scanParenthesis t))
    (chordEnd : c = ']' → P (.chordEnd,lengthRun t))
    (rest : c = 'z' ∨ c = 'x' → P (.rest,lengthRun t))
    (multiRest : c = 'Z' ∨ c = 'X' → P (.multiRest,digitRun t))
    (accidental : c = '^' ∨ c = '_' → P (scanAccidental c t))
    (natural : c = '=' → P (scanLetter 0 t))
    (letter : isNoteLetter c = true → P (.note,noteTail t)) : P (scan c t) := by
  have when {p : Prop} [Decidable p] {x y : TokenKind × Nat} (hx : p → P x) (hy : P y) :
      P (if p then x else y) := iteInduction hx fun _ => hy
  have always (kind : TokenKind) (more : Nat) (h : kind ∈ singleKinds) {p : Prop} :
      p → P (kind,more) := fun _ => single kind h more
  unfold scan
  apply when (always _ _ (by decide))
  apply when comment
  apply when (always _ _ (by decide))
  apply when fun _ => quote
  apply when named
  apply when bracket
  apply when chordEnd
  apply when fun _ => bar
  apply when fun _ => colon
  apply when parenthesis
  apply when (always _ _ (by decide))
  apply when (always _ _ (by decide))
  apply when (always _ _ (by decide))
  apply when (always _ _ (by decide))
  apply when (always _ _ (by decide))
  apply when accidental
  apply when natural
  apply when letter
  apply when rest
  apply when multiRest
  exact when (always _ _ (by decide)) (single _ (by decide) _)

end AbcTune.Token
