import AbcTune.Proofs.Repeat.Section
import AbcTune.Proofs.Token.Plain
import AbcTune.Proofs.Token.Scan

/-! # Lines by their first token

A line is a field, a directive, a comment or music, and its first token tells which. A key line
is the key field, or it is music that is more than blanks.
-/
namespace AbcTune

/-! ## Line breaks -/

/-- Blanks behind a text do not change what it starts with behind its own blanks. -/
theorem Text.isPrefixOf_trimStart_append {mark e : Text} (t : Text)
    (he : ∀ c ∈ e, isBlank c = true ∧ c ∉ mark) :
    mark.isPrefixOf (trimStart (t ++ e)) = mark.isPrefixOf (trimStart t) := by
  have hnone : e.dropWhile isBlank = [] := List.dropWhile_eq_nil_iff.mpr fun c hc => (he c hc).1
  unfold trimStart
  rw [List.dropWhile_append, hnone]
  split
  · next h => rw [List.isEmpty_iff.mp h]
  · exact isPrefixOf_append _ fun c hc => (he c (List.mem_of_mem_head? hc)).2

open Repeat in
/-- What ends a line makes no difference to its being a key line. -/
theorem Repeat.isKeyLine_append (t : Text) {e : Text} (he : ∀ c ∈ e, Token.isLineBreak c = true) :
    isKeyLine (t ++ e) = isKeyLine t := by
  refine Text.isPrefixOf_trimStart_append t fun c hc => ?_
  have hc := he c hc
  simp only [Token.isLineBreak, Bool.or_eq_true, decide_eq_true_eq] at hc
  rcases hc with rfl | rfl <;> decide

namespace Token

theorem isLineBreak_of_mem_lineEnds {e : Text} (he : e ∈ Text.lineEnds) :
    ∀ c ∈ e, isLineBreak c = true := by
  have hall : ∀ e ∈ Text.lineEnds, e.all isLineBreak = true := by decide
  exact List.all_eq_true.mp (hall e he)

theorem eq_dropLineBreaks_append (t : Text) :
    ∃ e, t = dropLineBreaks t ++ e ∧ ∀ c ∈ e, isLineBreak c = true := by
  refine ⟨(t.reverse.takeWhile isLineBreak).reverse,?_,?_⟩
  · rw [dropLineBreaks, ← List.reverse_append, List.takeWhile_append_dropWhile,
      List.reverse_reverse]
  · exact fun c hc => List.mem_takeWhile_imp (List.mem_reverse.mp hc)

/-- A line is what is left of it without line breaks, and line breaks. -/
theorem exists_lineBreaks (line : Text) :
    ∃ e, line = dropLineBreaks (Text.dropLineEnd line) ++ e ∧ ∀ c ∈ e, isLineBreak c = true := by
  obtain ⟨e,he,hline⟩ := Text.exists_lineEnd line
  obtain ⟨breaks,hbreaks,hall⟩ := eq_dropLineBreaks_append (Text.dropLineEnd line)
  refine ⟨breaks ++ e,?_,?_⟩
  · rw [← List.append_assoc, ← hbreaks, ← hline]
  · intro c hc
    rcases List.mem_append.mp hc with hc | hc
    · exact hall c hc
    · exact isLineBreak_of_mem_lineEnds he c hc

theorem dropLineBreaks_of_notMem {t : Text} (hfeed : '\n' ∉ t) (hreturn : '\r' ∉ t) :
    dropLineBreaks t = t := by
  have hnone : t.reverse.dropWhile isLineBreak = t.reverse := by
    rw [List.dropWhile_eq_self_iff]
    intro hpos hc
    have hmem := List.mem_reverse.mp (List.getElem_mem hpos)
    simp only [isLineBreak, Bool.or_eq_true, decide_eq_true_eq] at hc
    rcases hc with hc | hc
    · exact hfeed (hc ▸ hmem)
    · exact hreturn (hc ▸ hmem)
  rw [dropLineBreaks, hnone, List.reverse_reverse]

/-! ## Kinds of lines -/

/-- Kinds of tokens that are lines by themselves. -/
def isLineKind : TokenKind → Bool
  | .field _ | .directive | .comment => true
  | _ => false

theorem lineKind_cases (kind : TokenKind) :
    (∃ name, kind = .field name) ∨ kind = .directive ∨ kind = .comment ∨
      isLineKind kind = false := by
  cases kind
  case field name => exact .inl ⟨name,rfl⟩
  case directive => exact .inr (.inl rfl)
  case comment => exact .inr (.inr (.inl rfl))
  all_goals exact .inr (.inr (.inr rfl))

theorem isLineKind_scanBracket (t : Text) : isLineKind (scanBracket t).1 = false := by
  rcases kind_scanBracket t with ⟨name,hkind⟩ | hkind
  · rw [hkind]
    rfl
  · exact eq_false_of_mem hkind rfl

/-- Only a comment takes a line by itself among the tokens of music. -/
theorem isLineKind_scan {c : Char} (hc : c ≠ '%') (rest : Text) :
    isLineKind (scan c rest).1 = false := by
  apply scan_cases (P := fun x => isLineKind x.1 = false)
  case single => exact fun kind hkind _ => eq_false_of_mem hkind rfl
  case comment => exact fun h => absurd h hc
  case quote => exact eq_false_of_mem (kind_scanQuote rest) rfl
  case named => exact fun _ => eq_false_of_mem (kind_scanDecoration c rest) rfl
  case bracket => exact fun _ => isLineKind_scanBracket rest
  case bar => exact eq_false_of_mem (kind_scanBar rest) rfl
  case colon => exact eq_false_of_mem (kind_scanColon rest) rfl
  case parenthesis => exact fun _ => eq_false_of_mem (kind_scanParenthesis rest) rfl
  case chordEnd | rest | multiRest => exact fun _ => rfl
  case accidental => exact fun _ => eq_false_of_mem (kind_scanAccidental c rest) rfl
  case natural => exact fun _ => eq_false_of_mem (kind_scanLetter 0 rest) rfl
  case letter => exact fun _ => rfl

/-- A token of music is what the scan takes where it stands. -/
theorem exists_scan_of_mem_musicTokens {line column : Nat} {t : Text} {token : Token}
    (h : token ∈ musicTokens line column t) :
    ∃ c rest column', token = ofLexeme (scan c rest).1 (lexeme c rest) line column' := by
  induction column, t using musicTokens.induct with
  | case1 column =>
    rw [musicTokens] at h
    cases h
  | case2 column c rest kind more hscan ih =>
    rw [musicTokens_cons] at h
    rcases List.mem_cons.mp h with rfl | h
    · exact ⟨c,rest,column,rfl⟩
    · rw [hscan] at h
      exact ih h

theorem exists_scan_of_mem_tokenize {line : Nat} {t : Text} {token : Token}
    (h : token ∈ tokenize t line) (hkind : isLineKind token.kind = false) :
    ∃ c rest column, token = ofLexeme (scan c rest).1 (lexeme c rest) line column := by
  unfold tokenize ofLine at h
  split at h
  · cases List.mem_singleton.mp h ▸ hkind
  · cases List.mem_singleton.mp h ▸ hkind
  · split at h
    · cases List.mem_singleton.mp h ▸ hkind
    · exact exists_scan_of_mem_musicTokens h
  · exact exists_scan_of_mem_musicTokens h

theorem isLineKind_musicTokens {t : Text} (ht : t.head? ≠ some '%') (hne : t ≠ []) (line : Nat) :
    ∃ first rest, musicTokens line 1 t = first :: rest ∧ isLineKind first.kind = false := by
  obtain ⟨c,t,rfl⟩ := List.exists_cons_of_ne_nil hne
  refine ⟨_,_,musicTokens_cons line 1 c t,?_⟩
  rw [kind_ofLexeme]
  exact isLineKind_scan (fun hc => ht (congrArg some hc)) t

theorem not_isBlank_of_isAlpha {c : Char} (h : c.isAlpha = true) : Text.isBlank c = false := by
  have hrange : (decide (65 ≤ c.val ∧ c.val ≤ 90) ||
      (decide (97 ≤ c.val) && decide (c.val ≤ 122))) = true := h
  have hletter : 65 ≤ c.toNat ∧ c.toNat ≤ 90 ∨ 97 ≤ c.toNat ∧ c.toNat ≤ 122 := by
    simpa [UInt32.le_iff_toNat_le] using hrange
  simp only [Text.isBlank, Bool.or_eq_false_iff, Bool.and_eq_false_iff, decide_eq_false_iff_not,
    beq_eq_false_iff_ne]
  omega

/-- A field line starts with the letter of its field. -/
theorem ofLine_field {t : Text} {line : Nat} {first : Token} {rest : List Token} {name : Char}
    (h : ofLine t line = first :: rest) (hkind : first.kind = .field name) :
    ∃ value, t = name :: ':' :: value := by
  have hmusic (hpercent : t.head? ≠ some '%') (h : musicTokens line 1 t = first :: rest) :
      False := by
    have hne : t ≠ [] := fun hnil => by
      rw [hnil, musicTokens] at h
      cases h
    obtain ⟨first',rest',heq,hline⟩ := isLineKind_musicTokens hpercent hne line
    obtain ⟨rfl,-⟩ := List.cons.inj (h.symm.trans heq)
    rw [hkind] at hline
    cases hline
  unfold ofLine at h
  split at h
  · obtain ⟨rfl,-⟩ := List.cons.inj h
    cases hkind
  · obtain ⟨rfl,-⟩ := List.cons.inj h
    cases hkind
  · next letter value hletter =>
    split at h
    · obtain ⟨rfl,-⟩ := List.cons.inj h
      cases hkind
      exact ⟨value,rfl⟩
    · exact (hmusic (fun hpercent => hletter (Option.some.inj hpercent)) h).elim
  · next hcomment hfield =>
    refine (hmusic (fun hpercent => ?_) h).elim
    obtain ⟨u,rfl⟩ := List.head?_eq_some_iff.mp hpercent
    exact hcomment u rfl

/-- A key line is the key field, or music that is more than blanks. -/
theorem ofLine_keyLine {t : Text} (h : Repeat.isKeyLine t = true) (line : Nat) :
    (∃ value, ofLine t line = [ofField 'K' value line]) ∨
      ∃ first rest, ofLine t line = first :: rest ∧ isLineKind first.kind = false ∧
        ¬∀ token ∈ first :: rest, token.kind = .space := by
  have hcolon : ':' ∈ t := by
    have hmark := List.isPrefixOf_iff_prefix.mp h
    exact (List.dropWhile_sublist _).subset (hmark.subset (by decide))
  have hmusic (hpercent : t.head? ≠ some '%') : ∃ first rest,
      musicTokens line 1 t = first :: rest ∧ isLineKind first.kind = false ∧
        ¬∀ token ∈ first :: rest, token.kind = .space := by
    obtain ⟨first,rest,heq,hline⟩ :=
      isLineKind_musicTokens hpercent (List.ne_nil_of_mem hcolon) line
    refine ⟨first,rest,heq,hline,?_⟩
    intro hspaces
    have hnone : symbols t = [] := by
      rw [symbols, signs_musicTokens 1 1 line 1, heq, signs]
      refine List.map_eq_nil_iff.mpr (List.filter_eq_nil_iff.mpr fun token htoken => ?_)
      simp [hspaces token htoken]
    have hplain : PlainMusic t := (plainMusic_iff t).mpr fun p hp => by
      rw [hnone] at hp
      cases hp
    exact hplain.notMem (by decide) hcolon
  obtain ⟨c,t,rfl⟩ := List.exists_cons_of_ne_nil (List.ne_nil_of_mem hcolon)
  have hfirst : Text.isBlank c = true ∨ c = 'K' := by
    by_cases hblank : Text.isBlank c = true
    · exact .inl hblank
    · rw [Repeat.isKeyLine, Text.trimStart, List.dropWhile_cons, if_neg hblank] at h
      exact .inr (Text.isPrefixOf_mark.mp h).1
  have hpercent : c ≠ '%' := by
    rintro rfl
    revert hfirst
    decide
  have hmusic := hmusic fun hhead => hpercent (Option.some.inj hhead)
  unfold ofLine
  split
  · next heq => exact absurd (List.cons.inj heq).1 hpercent
  · next heq => exact absurd (List.cons.inj heq).1 hpercent
  · next letter value _ heq =>
    split
    · next hfield =>
      obtain ⟨rfl,rfl⟩ := List.cons.inj heq
      have halpha : c.isAlpha = true := by
        simp only [isFieldLine, Bool.and_eq_true] at hfield
        exact hfield.1.1
      rcases hfirst with hblank | rfl
      · rw [not_isBlank_of_isAlpha halpha] at hblank
        cases hblank
      · exact .inl ⟨value,rfl⟩
    · exact .inr hmusic
  · exact .inr hmusic

/-- A line that starts neither as a field nor with a percent sign is music. -/
theorem ofLine_music {t : Text} (hpercent : t.head? ≠ some '%') (hfield : isFieldLine t = false)
    (line : Nat) : ofLine t line = musicTokens line 1 t := by
  unfold ofLine
  split
  · exact absurd rfl hpercent
  · exact absurd rfl hpercent
  · rw [hfield]
    rfl
  · rfl

theorem tokenize_music {t : Text} (hfeed : '\n' ∉ t) (hreturn : '\r' ∉ t) (hpercent : '%' ∉ t)
    (hfield : isFieldLine t = false) (line : Nat) : tokenize t line = musicTokens line 1 t := by
  rw [tokenize, dropLineBreaks_of_notMem hfeed hreturn]
  exact ofLine_music (fun hhead => hpercent (List.mem_of_mem_head? hhead)) hfield line

/-! ## Texts of tokens -/

theorem trim_sublist (t : Text) : (Text.trim t).Sublist t := by
  have hend : (Text.trim t).Sublist (Text.trimStart t) := by
    rw [← List.reverse_sublist, Text.trim, Text.trimEnd, List.reverse_reverse]
    exact List.dropWhile_sublist _
  exact hend.trans (List.dropWhile_sublist _)

theorem dropCommentFrom_sublist (previous : Char) (t : Text) :
    (dropCommentFrom previous t).Sublist t := by
  induction t generalizing previous with
  | nil => exact .refl _
  | cons c t ih =>
    rw [dropCommentFrom]
    split
    · exact List.nil_sublist _
    · exact (ih c).cons_cons c

theorem ofLexeme_sublist (kind : TokenKind) (lexeme : Text) (line column : Nat) :
    (ofLexeme kind lexeme line column).text.Sublist lexeme := by
  unfold ofLexeme
  split
  · exact (trim_sublist _).trans ((List.dropLast_sublist _).trans (List.drop_sublist 3 lexeme))
  · exact .refl _

theorem sublist_of_mem_musicTokens {line column : Nat} {t : Text} {token : Token}
    (h : token ∈ musicTokens line column t) : token.text.Sublist t := by
  induction column, t using musicTokens.induct with
  | case1 column =>
    rw [musicTokens] at h
    cases h
  | case2 column c rest kind more hscan ih =>
    rw [musicTokens_cons, hscan] at h
    rcases List.mem_cons.mp h with rfl | h
    · refine (ofLexeme_sublist _ _ _ _).trans ?_
      rw [lexeme, hscan]
      exact (List.take_sublist more rest).cons_cons c
    · exact ((ih h).trans (List.drop_sublist more rest)).cons c

/-- A token holds nothing that its line does not hold. -/
theorem sublist_of_mem_tokenize {t : Text} {line : Nat} {token : Token}
    (h : token ∈ tokenize t line) : token.text.Sublist t := by
  have hline : (dropLineBreaks t).Sublist t := by
    rw [← List.reverse_sublist, dropLineBreaks, List.reverse_reverse]
    exact List.dropWhile_sublist _
  refine List.Sublist.trans ?_ hline
  unfold tokenize ofLine at h
  split at h
  · next rest heq =>
    rw [List.mem_singleton.mp h, heq]
    exact (trim_sublist rest).trans (((List.Sublist.refl rest).cons _).cons _)
  · rw [List.mem_singleton.mp h]
  · next name value _ heq =>
    split at h
    · rw [List.mem_singleton.mp h, heq]
      exact (trim_sublist _).trans (((dropCommentFrom_sublist _ value).cons _).cons _)
    · exact sublist_of_mem_musicTokens h
  · exact sublist_of_mem_musicTokens h

end Token

/-! ## Lines that look like fields -/

namespace Repeat

theorem isField_iff {t : Text} :
    isField t = true ↔ ∃ name : Char, name.isAlpha = true ∧ [name, ':'].isPrefixOf t = true := by
  unfold isField
  split
  · next c rest => simp [List.isPrefixOf]
  · next h =>
    refine iff_of_false (by simp) ?_
    rintro ⟨name,-,hmark⟩
    obtain ⟨rest,rfl⟩ := List.isPrefixOf_iff_prefix.mp hmark
    exact h name rest rfl

/-- What ends a line makes no difference to its looking like a field. -/
theorem isField_append (t : Text) {e : Text} (he : ∀ c ∈ e, Text.isBlank c = true) :
    isField (Text.trimStart (t ++ e)) = isField (Text.trimStart t) := by
  rw [Bool.eq_iff_iff, isField_iff, isField_iff]
  refine exists_congr fun name => and_congr_right fun hname => ?_
  rw [Text.isPrefixOf_trimStart_append]
  intro c hc
  have hblank := he c hc
  refine ⟨hblank,fun hmem => ?_⟩
  simp only [List.mem_cons, List.not_mem_nil, or_false] at hmem
  rcases hmem with rfl | rfl
  · rw [Token.not_isBlank_of_isAlpha hname] at hblank
    cases hblank
  · revert hblank
    decide

end Repeat
end AbcTune
