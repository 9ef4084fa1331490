import AbcTune.Proofs.Repeat.Division
import AbcTune.Proofs.Repeat.Lead
import AbcTune.Proofs.Token.Line
import AbcTune.Tune.Reading

/-! # What counts as a field line

Before a text is read as tokens, its header is told from its body, the body is divided where the
voice changes, and the music of a section is told from what comes before it. All of that goes by
the look of the lines: a name and a colon behind blanks. The lexer takes no blanks before the name
and no mark at the colon, so that there are lines that look like fields and are read as music.
-/
namespace AbcTune

open Repeat Text

variable {name : Char} {line : Text}

/-- Behind its blanks the line starts with a name and a colon. -/
def LooksLike (name : Char) (line : Text) : Prop := [name, ':'].isPrefixOf (trimStart line) = true

/-- The line looks like a field, but blanks stand before its name or a mark starts at its colon. -/
def Misleads (name : Char) (line : Text) : Prop :=
  LooksLike name line ∧
    (line.head?.any isBlank = true ∨
      ((trimStart line)[2]?.any fun c => c = '|' || c = ':') = true)

instance (name : Char) (line : Text) : Decidable (LooksLike name line) :=
  inferInstanceAs (Decidable (_ = true))

instance (name : Char) (line : Text) : Decidable (Misleads name line) :=
  inferInstanceAs (Decidable (_ ∧ _))

/-- Among the tokens of the line is a field. -/
def HasField (name : Char) (line : Text) : Prop :=
  ∀ number, ∃ token ∈ Token.tokenize line number, token.kind = .field name

/-! ## Fields among the tokens -/

theorem looksLike_iff : LooksLike name line ↔ ∃ value, trimStart line = name :: ':' :: value := by
  unfold LooksLike
  rw [List.isPrefixOf_iff_prefix]
  constructor
  · rintro ⟨value,h⟩
    exact ⟨value,h.symm⟩
  · rintro ⟨value,h⟩
    exact ⟨value,h.symm⟩

namespace Token

theorem not_field_of_mem_musicTokens {number column : Nat} {t : Text} {token : Token}
    (h : token ∈ musicTokens number column t) : token.kind ≠ .field name := by
  induction column, t using musicTokens.induct with
  | case1 column =>
    rw [musicTokens] at h
    cases h
  | case2 column c rest kind more hscan ih =>
    rw [musicTokens_cons] at h
    rcases List.mem_cons.mp h with rfl | h
    · rw [kind_ofLexeme]
      by_cases hc : c = '%'
      · subst hc
        exact fun h => by cases h
      · intro hkind
        have hline := isLineKind_scan hc rest
        rw [hkind] at hline
        cases hline
    · rw [hscan] at h
      exact ih h

end Token

theorem isFieldLine_iff_exists :
    isFieldLine line = true ↔ ∃ name value, line = name :: ':' :: value ∧ name.isAlpha = true ∧
      ¬(value.head?.any fun c => c = '|' || c = ':') = true := by
  constructor
  · intro h
    unfold isFieldLine at h
    split at h
    · next name value =>
      refine ⟨name,value,rfl,?_⟩
      cases value <;> simp_all
    · cases h
  · rintro ⟨name,value,rfl,halpha,hmark⟩
    cases value <;> simp_all [isFieldLine]

theorem isFieldLine_iff :
    isFieldLine line = true ∧ line.head? = some name ↔
      name.isAlpha = true ∧ LooksLike name line ∧ ¬Misleads name line := by
  rw [isFieldLine_iff_exists]
  constructor
  · rintro ⟨⟨letter,value,rfl,halpha,hmark⟩,hname⟩
    cases hname
    have hblank := Token.not_isBlank_of_isAlpha halpha
    have htrim : trimStart (name :: ':' :: value) = name :: ':' :: value :=
      List.dropWhile_cons_of_neg (Bool.not_eq_true _ ▸ hblank)
    refine ⟨halpha,looksLike_iff.mpr ⟨value,htrim⟩,?_⟩
    rintro ⟨-,hhead | hthird⟩
    · rw [List.head?_cons, Option.any_some, hblank] at hhead
      cases hhead
    · rw [htrim] at hthird
      cases value with
      | nil => cases hthird
      | cons c value => exact hmark hthird
  · rintro ⟨halpha,hlook,hmisleads⟩
    obtain ⟨value,htrim⟩ := looksLike_iff.mp hlook
    obtain ⟨hhead,hthird⟩ := not_or.mp fun h => hmisleads ⟨hlook,h⟩
    have hline : line = name :: ':' :: value := by
      rw [← htrim, trimStart]
      cases line with
      | nil => rfl
      | cons c line =>
        have hblank : ¬isBlank c = true := hhead
        rw [List.dropWhile_cons_of_neg hblank]
    rw [htrim] at hthird
    refine ⟨⟨name,value,hline,halpha,?_⟩,by rw [hline]; rfl⟩
    cases value with
    | nil => exact Bool.false_ne_true
    | cons c value => exact hthird

theorem ofLine_fieldLine {value : Text} (h : isFieldLine (name :: ':' :: value) = true)
    (number : Nat) :
    Token.ofLine (name :: ':' :: value) number = [Token.ofField name value number] := by
  have hpercent : name ≠ '%' := by
    rintro rfl
    cases h
  unfold Token.ofLine
  split
  · next heq => exact absurd (List.cons.inj heq).1 hpercent
  · next heq => exact absurd (List.cons.inj heq).1 hpercent
  · next heq =>
    cases heq
    exact if_pos h
  · next hother => exact absurd rfl (hother name value)

/-- A field is read where a line looks like one and does not mislead. -/
theorem hasField_iff (hfeed : '\n' ∉ line) (hreturn : '\r' ∉ line) :
    HasField name line ↔ name.isAlpha = true ∧ LooksLike name line ∧ ¬Misleads name line := by
  rw [← isFieldLine_iff]
  unfold HasField Token.tokenize
  rw [Token.dropLineBreaks_of_notMem hfeed hreturn]
  constructor
  · intro h
    obtain ⟨token,htoken,hkind⟩ := h 1
    unfold Token.ofLine at htoken
    split at htoken
    · rw [List.mem_singleton.mp htoken] at hkind
      cases hkind
    · rw [List.mem_singleton.mp htoken] at hkind
      cases hkind
    · split at htoken
      · next hfield =>
        rw [List.mem_singleton.mp htoken] at hkind
        cases hkind
        exact ⟨hfield,rfl⟩
      · exact absurd hkind (Token.not_field_of_mem_musicTokens htoken)
    · exact absurd hkind (Token.not_field_of_mem_musicTokens htoken)
  · rintro ⟨hfield,hname⟩ number
    obtain ⟨letter,value,rfl,-⟩ := isFieldLine_iff_exists.mp hfield
    cases hname
    rw [ofLine_fieldLine hfield]
    exact ⟨_,List.mem_singleton_self _,rfl⟩

/-! ## What the look of a line decides -/

/-- Written first in a text, the line is its header. -/
def EndsHeader (line : Text) : Prop :=
  ∀ rest, splitHeader (line ++ '\n' :: rest) = (line ++ ['\n'],rest)

/-- Wherever the line is written in a body, a section starts behind its blanks. -/
def StartsSection (line : Text) : Prop :=
  ∀ before after, before.getLast? = some '\n' →
    DividedAt (before ++ line.takeWhile isBlank) (trimStart line ++ '\n' :: after)

/-- Behind its blanks the line starts with a voice field in brackets. -/
def StartsInBrackets (line : Text) : Prop := ['[', 'V', ':'].isPrefixOf (trimStart line) = true

instance (line : Text) : Decidable (StartsInBrackets line) :=
  inferInstanceAs (Decidable (_ = true))

/-- Written first in a section, the line comes before its music. -/
def IsSkipped (line : Text) : Prop :=
  ∀ rest, musicStart (line ++ '\n' :: rest) = line.length + 1 + musicStart rest

theorem endsHeader_iff (hfeed : '\n' ∉ line) : EndsHeader line ↔ LooksLike 'K' line := by
  have hkey : isKeyLine (line ++ ['\n']) = isKeyLine line := 
    isKeyLine_append line (Token.isLineBreak_of_mem_lineEnds (by decide))
  unfold EndsHeader splitHeader
  simp only [lineBlocks_line hfeed, splitAtKey, hkey]
  constructor
  · intro h
    refine Decidable.byContradiction fun hlook => ?_
    have hnone := h []
    rw [if_neg (show ¬isKeyLine line = true from hlook)] at hnone
    cases line <;> cases hnone
  · intro h rest
    rw [if_pos (show isKeyLine line = true from h)]
    exact Prod.ext List.flatten_singleton (flatten_lineBlocks rest)

theorem hasKeyLine_iff (hfeed : '\n' ∉ line) (hreturn : '\r' ∉ line) :
    hasKeyLine line = true ↔ LooksLike 'K' line := by
  have hlines := lines_line hfeed hreturn (e := []) (by decide)
  rw [List.append_nil] at hlines
  rw [hasKeyLine, hlines]
  split
  · next h =>
    subst h
    decide
  · rw [List.any_cons, List.any_nil, Bool.or_false]
    rfl

theorem startsSection_iff :
    StartsSection line ↔ LooksLike 'V' line ∨ StartsInBrackets line := by
  have hdivided (before after : Text) (hbefore : before.getLast? = some '\n') :
      DividedAt (before ++ line.takeWhile isBlank) (trimStart line ++ '\n' :: after) ↔
        LooksLike 'V' line ∨ StartsInBrackets line := by
    have hfront : before ++ line.takeWhile isBlank ≠ [] := by
      rintro h
      rw [(List.append_eq_nil_iff.mp h).1] at hbefore
      cases hbefore
    have hblanks : onlyBlanks true (before ++ line.takeWhile isBlank) = true := by
      rw [onlyBlanks_append, onlyBlanks_lineFeed true hbefore]
      exact onlyBlanks_of_blank fun c hc => List.mem_takeWhile_imp hc
    have hmark (mark : Text) (hmark : '\n' ∉ mark) : ∀ c ∈ ('\n' :: after).head?, c ∉ mark := by
      rintro c ⟨⟩
      exact hmark
    rw [dividedAt_iff hfront (by simp), hblanks, Repeat.startsSection,
      isPrefixOf_append _ (hmark _ (by decide)), isPrefixOf_append _ (hmark _ (by decide)),
      Bool.true_and, Bool.or_eq_true]
    rfl
  exact ⟨fun h => (hdivided ['\n'] [] rfl).mp (h ['\n'] [] rfl),
    fun h before after hbefore => (hdivided before after hbefore).mpr h⟩

theorem isSkipped_iff (hfeed : '\n' ∉ line) :
    IsSkipped line ↔ ∃ name : Char, name.isAlpha = true ∧ LooksLike name line := by
  unfold LooksLike
  rw [← isField_iff, ← isField_append line (isBlank_of_mem_lineEnds (e := ['\n']) (by decide))]
  unfold IsSkipped musicStart
  simp only [lineBlocks_line hfeed]
  constructor
  · intro h
    refine Decidable.byContradiction fun hfield => ?_
    have hle := leadLength_le_of_not_isField (Bool.not_eq_true _ ▸ hfield) (lineBlocks "K:".toList)
    rw [h "K:".toList] at hle
    have hlead : leadLength (lineBlocks "K:".toList) = 2 := by decide
    rw [hlead, List.length_append, List.length_singleton] at hle
    omega
  · intro h rest
    rw [leadLength_of_isField h, List.length_append, List.length_singleton]

/-! ## Agreement -/

/-- Of a line that misleads the lexer makes no field of its name, and all else takes it for one. -/
theorem fieldLines_agree_iff (hfeed : '\n' ∉ line) (hreturn : '\r' ∉ line) :
    ((EndsHeader line ↔ HasField 'K' line) ↔ ¬Misleads 'K' line) ∧
      ((hasKeyLine line = true ↔ HasField 'K' line) ↔ ¬Misleads 'K' line) ∧
      ((StartsSection line ↔ HasField 'V' line) ↔
        ¬Misleads 'V' line ∧ ¬StartsInBrackets line) ∧
      ((IsSkipped line ↔ ∃ name, HasField name line) ↔
        ∀ name : Char, name.isAlpha = true → ¬Misleads name line) := by
  have hkey : (LooksLike 'K' line ↔ HasField 'K' line) ↔ ¬Misleads 'K' line := by
    rw [hasField_iff hfeed hreturn]
    have halpha : 'K'.isAlpha = true := by decide
    have hlook : Misleads 'K' line → LooksLike 'K' line := And.left
    tauto
  have hvoice : (StartsSection line ↔ HasField 'V' line) ↔
      ¬Misleads 'V' line ∧ ¬StartsInBrackets line := by
    rw [startsSection_iff, hasField_iff hfeed hreturn]
    have halpha : 'V'.isAlpha = true := by decide
    have hlook : Misleads 'V' line → LooksLike 'V' line := And.left
    have hbrackets : StartsInBrackets line → ¬LooksLike 'V' line := by
      intro hbrackets hlook
      obtain ⟨rest,hrest⟩ := List.isPrefixOf_iff_prefix.mp hbrackets
      obtain ⟨value,hvalue⟩ := looksLike_iff.mp hlook
      cases hrest.trans hvalue
    tauto
  have hskipped : (IsSkipped line ↔ ∃ name, HasField name line) ↔
      ∀ name : Char, name.isAlpha = true → ¬Misleads name line := by
    rw [isSkipped_iff hfeed]
    simp only [hasField_iff hfeed hreturn]
    constructor
    · intro h name halpha hmisleads
      obtain ⟨letter,-,hlook,hnot⟩ := h.mp ⟨name,halpha,hmisleads.1⟩
      obtain ⟨value,htrim⟩ := looksLike_iff.mp hlook
      obtain ⟨value',htrim'⟩ := looksLike_iff.mp hmisleads.1
      cases htrim.symm.trans htrim'
      exact hnot hmisleads
    · intro h
      exact exists_congr fun name => and_congr_right fun halpha =>
        (and_iff_left (h name halpha)).symm
  rw [endsHeader_iff hfeed, hasKeyLine_iff hfeed hreturn]
  exact ⟨hkey,hkey,hvoice,hskipped⟩

theorem fieldLines_agree_plain :
    '\n' ∉ "V:1".toList ∧ '\r' ∉ "V:1".toList ∧
      (StartsSection "V:1".toList ↔ HasField 'V' "V:1".toList) :=
  ⟨by decide,by decide,
    (@fieldLines_agree_iff "V:1".toList (by decide) (by decide)).2.2.1.mpr (by decide)⟩

/-- Behind a blank a key line ends the header, and is read as music. -/
theorem fieldLines_disagree_indented :
    ¬(EndsHeader " K:C".toList ↔ HasField 'K' " K:C".toList) ∧
      splitHeader " K:C\nA\n".toList = (" K:C\n".toList,"A\n".toList) ∧
      ∀ token ∈ Token.tokenize " K:C".toList 1, token.kind ≠ .field 'K' := by
  have hnone : ∀ token ∈ Token.tokenize " K:C".toList 1, token.kind ≠ .field 'K' := by
    decide +kernel
  refine ⟨fun h => ?_,by decide +kernel,hnone⟩
  have hheader : EndsHeader " K:C".toList := (endsHeader_iff (by decide)).mpr (by decide)
  obtain ⟨token,htoken,hkind⟩ := h.mp hheader 1
  exact hnone token htoken hkind

end AbcTune
