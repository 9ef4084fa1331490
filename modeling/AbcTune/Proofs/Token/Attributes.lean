import Mathlib.Data.List.Induction
import AbcTune.Proofs.Text.Run
import AbcTune.Proofs.Token.FieldLine

/-! # Attributes in quotes

An attribute is written behind a blank, and its value in quotes, so that blanks and equals signs
may stand in it. A field is read in several passes over the same text: line breaks and comments are
cut off, blanks trimmed, words told apart by the blanks outside of quotes, and words cut at their
first equals sign. What was written is what all of them together give back.
-/
namespace AbcTune

open Text

variable {id run t : Text} {attributes : List (Text × Text)}

/-- Text without the marks that a field is divided by. -/
def IsBareWord (t : Text) : Prop := ∀ c ∈ t, isBlank c = false ∧ c ≠ '=' ∧ c ≠ '"' ∧ c ≠ '%'

instance (t : Text) : Decidable (IsBareWord t) := List.decidableBAll _ t

/-- A key in small letters, with a value that may hold all but quotes and percent signs. -/
structure IsAttribute (a : Text × Text) : Prop where
  key : IsBareWord a.1
  small : ∀ c ∈ a.1, c.isUpper = false
  value : ∀ c ∈ a.2, c ≠ '"' ∧ c ≠ '%'

instance (a : Text × Text) : Decidable (IsAttribute a) :=
  have : Decidable (∀ c ∈ a.1, c.isUpper = false) := List.decidableBAll _ a.1
  have : Decidable (∀ c ∈ a.2, c ≠ '"' ∧ c ≠ '%') := List.decidableBAll _ a.2
  decidable_of_iff
    (IsBareWord a.1 ∧ (∀ c ∈ a.1, c.isUpper = false) ∧ ∀ c ∈ a.2, c ≠ '"' ∧ c ≠ '%')
    ⟨fun ⟨hkey,hsmall,hvalue⟩ => ⟨hkey,hsmall,hvalue⟩,fun h => ⟨h.key,h.small,h.value⟩⟩

/-- An attribute as it is written in a field. -/
def quotedAttribute (a : Text × Text) : Text := ' ' :: (a.1 ++ '=' :: '"' :: (a.2 ++ ['"']))

/-- The value of a voice field: an id and attributes. -/
def voiceValue (id : Text) (attributes : List (Text × Text)) : Text :=
  id ++ attributes.flatMap quotedAttribute

/-! ## Words -/

/-- A run of characters that neither quote nor divide belongs to the word under way. -/
theorem fieldWordsFrom_run {quoted : Bool}
    (hrun : ∀ c ∈ run, c ≠ '"' ∧ (isBlank c = true → quoted = true)) (passed rest : Text) :
    fieldWordsFrom passed quoted (run ++ rest) =
      fieldWordsFrom (run.reverse ++ passed) quoted rest := by
  induction run generalizing passed with
  | nil => rfl
  | cons c run ih =>
    obtain ⟨⟨hquote,hblank⟩,hrest⟩ := List.forall_mem_cons.mp hrun
    have hinside : ¬(isBlank c && !quoted) = true := by
      intro h
      obtain ⟨hc,hnot⟩ := Bool.and_eq_true_iff.mp h
      rw [hblank hc] at hnot
      cases hnot
    rw [List.cons_append, fieldWordsFrom, if_neg hquote, if_neg hinside, ih hrest]
    simp

theorem fieldWordsFrom_bareWord (h : IsBareWord run) (passed rest : Text) :
    fieldWordsFrom passed false (run ++ rest) =
      fieldWordsFrom (run.reverse ++ passed) false rest := by
  refine fieldWordsFrom_run (fun c hc => ?_) passed rest
  obtain ⟨hblank,-,hquote,-⟩ := h c hc
  exact ⟨hquote,fun hc => hblank.symm.trans hc⟩

/-- An attribute ends the word before it, and is a word without its quotes. -/
theorem fieldWordsFrom_quotedAttribute {a : Text × Text} (ha : IsAttribute a) {passed : Text}
    (hpassed : passed ≠ []) (rest : Text) :
    fieldWordsFrom passed false (quotedAttribute a ++ rest) =
      passed.reverse :: fieldWordsFrom (a.1 ++ '=' :: a.2).reverse false rest := by
  obtain ⟨key,value⟩ := a
  have hvalue : ∀ c ∈ value, c ≠ '"' ∧ (isBlank c = true → true = true) :=
    fun c hc => ⟨(ha.value c hc).1,fun _ => rfl⟩
  have hopen : quotedAttribute (key,value) ++ rest =
      ' ' :: (key ++ '=' :: '"' :: (value ++ '"' :: rest)) := by
    simp [quotedAttribute]
  have hspace : fieldWordsFrom passed false (' ' :: (key ++ '=' :: '"' :: (value ++ '"' :: rest))) =
      passed.reverse :: fieldWordsFrom [] false (key ++ '=' :: '"' :: (value ++ '"' :: rest)) := by
    cases passed with
    | nil => exact absurd rfl hpassed
    | cons c passed => rfl
  have hquote (word : Text) : fieldWordsFrom word false ('=' :: '"' :: (value ++ '"' :: rest)) =
      fieldWordsFrom ('=' :: word) true (value ++ '"' :: rest) := rfl
  have hclose (word : Text) : fieldWordsFrom word true ('"' :: rest) =
      fieldWordsFrom word false rest := rfl
  rw [hopen, hspace, fieldWordsFrom_bareWord ha.key, hquote, fieldWordsFrom_run hvalue, hclose]
  simp

theorem fieldWordsFrom_attributes (h : ∀ a ∈ attributes, IsAttribute a) {passed : Text}
    (hpassed : passed ≠ []) :
    fieldWordsFrom passed false (attributes.flatMap quotedAttribute) =
      passed.reverse :: attributes.map fun a => a.1 ++ '=' :: a.2 := by
  induction attributes generalizing passed with
  | nil => rw [List.flatMap_nil, fieldWordsFrom, if_neg (by simpa using hpassed), List.map_nil]
  | cons a rest ih =>
    obtain ⟨ha,hrest⟩ := List.forall_mem_cons.mp h
    rw [List.flatMap_cons, fieldWordsFrom_quotedAttribute ha hpassed, ih hrest (by simp),
      List.reverse_reverse, List.map_cons]

theorem fieldWords_voiceValue (hid : IsBareWord id) (hne : id ≠ [])
    (h : ∀ a ∈ attributes, IsAttribute a) :
    fieldWords (voiceValue id attributes) = id :: attributes.map fun a => a.1 ++ '=' :: a.2 := by
  rw [fieldWords, voiceValue, fieldWordsFrom_bareWord hid, List.append_nil,
    fieldWordsFrom_attributes h (by simpa using hne), List.reverse_reverse]

/-! ## Attributes -/

theorem toLower_of_small (h : ∀ c ∈ t, c.isUpper = false) : toLower t = t := by
  have hchar : ∀ c ∈ t, c.toLower = c := by
    intro c hc
    have hsmall := h c hc
    unfold Char.isUpper at hsmall
    unfold Char.toLower
    grind
  unfold toLower
  rw [List.map_congr_left hchar, List.map_id']

theorem readAttribute?_of_isAttribute {a : Text × Text} (ha : IsAttribute a) :
    readAttribute? (a.1 ++ '=' :: a.2) = some a := by
  have hkey : '=' ∉ a.1 := fun h => (ha.key '=' h).2.1 rfl
  rw [readAttribute?, cutAt_append hkey, Option.map_some]
  exact congrArg (fun key => some (key,a.2)) (toLower_of_small ha.small)

theorem readAttribute?_of_isBareWord (ht : IsBareWord t) : readAttribute? t = none := by
  have hequals : '=' ∉ t := fun h => (ht '=' h).2.1 rfl
  rw [readAttribute?, cutAt_of_notMem hequals]
  rfl

theorem fieldProperties_voiceValue (hid : IsBareWord id) (hne : id ≠ [])
    (h : ∀ a ∈ attributes, IsAttribute a) :
    fieldProperties (voiceValue id attributes) = attributes := by
  rw [fieldProperties, fieldWords_voiceValue hid hne h,
    List.filterMap_cons_none (readAttribute?_of_isBareWord hid), List.filterMap_map]
  have hread : ∀ a ∈ attributes, (readAttribute? ∘ fun a : Text × Text => a.1 ++ '=' :: a.2) a =
      some a := fun a ha => readAttribute?_of_isAttribute (h a ha)
  rw [List.filterMap_congr hread, List.filterMap_some]

/-! ## The ends of a field -/

theorem dropCommentFrom_of_notMem (h : '%' ∉ t) (previous : Char) :
    dropCommentFrom previous t = t := by
  induction t generalizing previous with
  | nil => rfl
  | cons c t ih =>
    have hc : ¬(c = '%' ∧ previous ≠ '\\') := fun hc => h (hc.1 ▸ List.mem_cons_self)
    rw [dropCommentFrom, if_neg hc, ih fun ht => h (List.mem_cons_of_mem c ht)]

theorem percent_notMem_voiceValue (hid : IsBareWord id) (h : ∀ a ∈ attributes, IsAttribute a) :
    '%' ∉ voiceValue id attributes := by
  intro hmem
  rcases List.mem_append.mp hmem with hmem | hmem
  · exact (hid '%' hmem).2.2.2 rfl
  · obtain ⟨a,ha,hmem⟩ := List.mem_flatMap.mp hmem
    have hkey : '%' ∉ a.1 := fun hc => ((h a ha).key '%' hc).2.2.2 rfl
    have hvalue : '%' ∉ a.2 := fun hc => ((h a ha).value '%' hc).2 rfl
    simp [quotedAttribute, hkey, hvalue] at hmem

theorem head?_voiceValue (hne : id ≠ []) (attributes : List (Text × Text)) :
    (voiceValue id attributes).head? = id.head? := by
  cases id with
  | nil => exact absurd rfl hne
  | cons c id => rfl

theorem voiceValue_ne_nil (hne : id ≠ []) (attributes : List (Text × Text)) :
    voiceValue id attributes ≠ [] := fun h => hne (List.append_eq_nil_iff.mp h).1

/-- The last character is that of the id, or a quote. -/
theorem not_isBlank_getLast?_voiceValue (hid : IsBareWord id) :
    ∀ c ∈ (voiceValue id attributes).getLast?, isBlank c = false := by
  intro c hc
  cases attributes using List.reverseRecOn with
  | nil =>
    rw [voiceValue, List.flatMap_nil, List.append_nil] at hc
    exact (hid c (List.mem_of_mem_getLast? hc)).1
  | append_singleton front a =>
    have hlast : (voiceValue id (front ++ [a])).getLast? = some '"' := by
      simp [voiceValue, quotedAttribute, List.getLast?_append, List.getLast?_cons]
    rw [hlast] at hc
    cases hc
    decide

theorem Token.dropLineBreaks_of_end (hend : ∀ c ∈ t.getLast?, isBlank c = false) :
    Token.dropLineBreaks t = t := by
  refine reverse_dropWhile_reverse fun c hc => Bool.eq_false_iff.mpr fun hbreak => ?_
  have hblank := hend c hc
  simp only [Token.isLineBreak, Bool.or_eq_true, decide_eq_true_eq] at hbreak
  rcases hbreak with rfl | rfl <;> cases hblank

/-- A voice field with attributes in quotes is read as one token. Its properties are the attributes
that were written, in their order, and its first word is the id. -/
theorem tokenize_voiceValue (hid : IsBareWord id) (hne : id ≠ [])
    (hmark : ∀ c ∈ id.head?, c ≠ '|' ∧ c ≠ ':') (h : ∀ a ∈ attributes, IsAttribute a)
    (line : Nat) :
    ∃ token, Token.tokenize ('V' :: ':' :: voiceValue id attributes) line = [token] ∧
      token.kind = .field 'V' ∧ token.properties = attributes ∧
      (fieldWords token.text).head? = some id := by
  have hhead := head?_voiceValue hne attributes
  have hend : ∀ c ∈ (voiceValue id attributes).getLast?, isBlank c = false :=
    not_isBlank_getLast?_voiceValue hid
  have hfield : isFieldLine ('V' :: ':' :: voiceValue id attributes) = true := by
    refine isFieldLine_iff_exists.mpr ⟨'V',_,rfl,by decide,?_⟩
    rw [hhead, Option.any_eq_true]
    rintro ⟨c,hc,hboth⟩
    simp [hmark c hc] at hboth
  have hbreaks : Token.dropLineBreaks ('V' :: ':' :: voiceValue id attributes) =
      'V' :: ':' :: voiceValue id attributes := by
    obtain ⟨c,rest,hvalue⟩ := List.ne_nil_iff_exists_cons.mp (voiceValue_ne_nil hne attributes)
    refine Token.dropLineBreaks_of_end ?_
    rwa [hvalue, List.getLast?_cons_cons, List.getLast?_cons_cons, ← hvalue]
  have htext : trim (dropComment (voiceValue id attributes)) = voiceValue id attributes := by
    rw [dropComment, dropCommentFrom_of_notMem (percent_notMem_voiceValue hid h)]
    refine trim_of_ends (fun c hc => ?_) hend
    rw [hhead] at hc
    exact (hid c (List.mem_of_mem_head? hc)).1
  refine ⟨Token.ofField 'V' (voiceValue id attributes) line,?_,rfl,?_,?_⟩
  · rw [Token.tokenize, hbreaks, ofLine_fieldLine hfield]
  · rw [Token.ofField, htext]
    exact fieldProperties_voiceValue hid hne h
  · rw [Token.ofField, htext, fieldWords_voiceValue hid hne h]
    rfl

/-- A name with blanks and an equals sign at its ends, an empty value, and a value without a key. -/
def altoAttributes : List (Text × Text) :=
  [("name".toList," Alto = II\t".toList), ("clef".toList,[]), ([],"=x".toList)]

theorem tokenize_voiceValue_alto :
    IsBareWord "2".toList ∧ "2".toList ≠ [] ∧ (∀ c ∈ "2".toList.head?, c ≠ '|' ∧ c ≠ ':') ∧
      (∀ a ∈ altoAttributes, IsAttribute a) ∧
      ∃ token, Token.tokenize "V:2 name=\" Alto = II\t\" clef=\"\" =\"=x\"".toList 4 = [token] ∧
        token.kind = .field 'V' ∧ token.properties = altoAttributes ∧
        (fieldWords token.text).head? = some "2".toList := by
  have hid : IsBareWord "2".toList := by decide
  have hmark : ∀ c ∈ "2".toList.head?, c ≠ '|' ∧ c ≠ ':' := by
    rintro _ ⟨⟩
    decide
  have hall : ∀ a ∈ altoAttributes, IsAttribute a := by decide +kernel
  have hwritten : 'V' :: ':' :: voiceValue "2".toList altoAttributes =
      "V:2 name=\" Alto = II\t\" clef=\"\" =\"=x\"".toList := by decide +kernel
  exact ⟨hid,by decide,hmark,hall,hwritten ▸ tokenize_voiceValue hid (by decide) hmark hall 4⟩

end AbcTune
