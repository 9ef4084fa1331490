import AbcTune.Repeat

/-! # Where a body is divided

The sections of a body are its text in pieces, none of them empty. Whether a piece ends at a place
in the body is told by what follows there and by the line that the place is in.
-/
namespace AbcTune.Repeat

variable {front back : Text}

/-- Whether a text leaves off with nothing but blanks in its last line, if it starts in a line of
which this is told. -/
def onlyBlanks (lineStart : Bool) (t : Text) : Bool :=
  t.foldl (fun lineStart c => c = '\n' || (lineStart && Text.isBlank c)) lineStart

theorem onlyBlanks_cons (lineStart : Bool) (c : Char) (t : Text) :
    onlyBlanks lineStart (c :: t) = onlyBlanks (c = '\n' || (lineStart && Text.isBlank c)) t := rfl

theorem onlyBlanks_append (lineStart : Bool) (s t : Text) :
    onlyBlanks lineStart (s ++ t) = onlyBlanks (onlyBlanks lineStart s) t := List.foldl_append

theorem onlyBlanks_of_blank {t : Text} (h : ∀ c ∈ t, Text.isBlank c = true) :
    onlyBlanks true t = true := by
  induction t with
  | nil => rfl
  | cons c t ih =>
    rw [onlyBlanks_cons, h c List.mem_cons_self, Bool.and_self, Bool.or_true]
    exact ih fun d hd => h d (List.mem_cons_of_mem _ hd)

theorem onlyBlanks_lineFeed (lineStart : Bool) {t : Text} (h : t.getLast? = some '\n') :
    onlyBlanks lineStart t = true := by
  obtain ⟨s,rfl⟩ := List.getLast?_eq_some_iff.mp h
  rw [onlyBlanks_append]
  rfl

/-! ## The sections found -/

theorem sectionsFrom_eq (done : List Text) (current : Text) (lineStart : Bool) (t : Text) :
    sectionsFrom done current lineStart t =
      done.reverse ++ sectionsFrom [] current lineStart t := by
  induction t generalizing done current lineStart with
  | nil =>
    unfold sectionsFrom
    split <;> simp
  | cons c t ih =>
    rw [sectionsFrom, sectionsFrom]
    split
    · rw [ih, ih [_]]
      simp
    · exact ih done _ _

theorem flatten_sectionsFrom (current : Text) (lineStart : Bool) (t : Text) :
    (sectionsFrom [] current lineStart t).flatten = current.reverse ++ t := by
  induction t generalizing current lineStart with
  | nil =>
    unfold sectionsFrom
    cases current <;> simp
  | cons c t ih =>
    rw [sectionsFrom]
    split
    · rw [sectionsFrom_eq, List.flatten_append, ih]
      simp
    · rw [ih]
      simp

theorem flatten_sections (body : Text) : (sections body).flatten = body :=
  flatten_sectionsFrom [] true body

theorem sectionsFrom_eq_cons {current : Text} (hne : current ≠ []) (lineStart : Bool) (t : Text) :
    ∃ rest more, sectionsFrom [] current lineStart t = (current.reverse ++ rest) :: more := by
  induction t generalizing current lineStart with
  | nil => exact ⟨[],[],by simp [sectionsFrom, hne]⟩
  | cons c t ih =>
    rw [sectionsFrom]
    split
    · rw [sectionsFrom_eq]
      exact ⟨[],_,by rw [List.append_nil]; rfl⟩
    · obtain ⟨rest,more,h⟩ := ih (List.cons_ne_nil c current) _
      exact ⟨c :: rest,more,by rw [h]; simp⟩

/-- A scan that has passed some text has found sections and has one under way. -/
theorem sectionsFrom_append (current : Text) (lineStart : Bool) (s t : Text) :
    ∃ found under,
      sectionsFrom [] current lineStart (s ++ t) =
        found ++ sectionsFrom [] under (onlyBlanks lineStart s) t ∧
      found.flatten ++ under.reverse = current.reverse ++ s ∧
      (under = [] → current = [] ∧ s = []) := by
  induction s generalizing current lineStart with
  | nil => exact ⟨[],current,rfl,by simp,fun h => ⟨h,rfl⟩⟩
  | cons c s ih =>
    rw [List.cons_append, sectionsFrom, onlyBlanks_cons]
    split
    · obtain ⟨found,under,hsections,hflatten,hunder⟩ :=
        ih [c] (c = '\n' || (lineStart && Text.isBlank c))
      refine ⟨current.reverse :: found,under,?_,?_,fun h => ?_⟩
      · rw [sectionsFrom_eq, hsections]
        rfl
      · rw [List.flatten_cons, List.append_assoc, hflatten]
        rfl
      · cases (hunder h).1
    · obtain ⟨found,under,hsections,hflatten,hunder⟩ :=
        ih (c :: current) (c = '\n' || (lineStart && Text.isBlank c))
      refine ⟨found,under,hsections,?_,fun h => ?_⟩
      · rw [hflatten]
        simp
      · cases (hunder h).1

/-! ## Places between sections -/

/-- The place between two texts is one where a section of the whole ends. -/
def DividedAt (front back : Text) : Prop :=
  ∃ done rest, sections (front ++ back) = done ++ rest ∧ done.flatten = front ∧ rest.flatten = back

/-- Inside a body a section ends where another one starts, and only there. -/
theorem dividedAt_iff (hfront : front ≠ []) (hback : back ≠ []) :
    DividedAt front back ↔ startsSection (onlyBlanks true front) back = true := by
  obtain ⟨found,under,hsections,hflatten,hunder⟩ := sectionsFrom_append [] true front back
  have hne : under ≠ [] := fun h => hfront (hunder h).2
  obtain ⟨c,back,rfl⟩ := List.exists_cons_of_ne_nil hback
  rw [DividedAt, sections, hsections, sectionsFrom]
  rw [List.isEmpty_eq_false_iff.mpr hne, Bool.not_false, Bool.and_true]
  constructor
  · rintro ⟨done,rest,hdone,hends,-⟩
    refine Decidable.byContradiction fun hstart => ?_
    rw [if_neg hstart] at hdone
    obtain ⟨more,others,hsection⟩ := sectionsFrom_eq_cons (List.cons_ne_nil c under)
      (c = '\n' || (onlyBlanks true front && Text.isBlank c)) back
    rw [hsection] at hdone
    -- the section that holds the place is either after what is done or part of it
    rcases List.append_eq_append_iff.mp hdone with ⟨inside,rfl,hinside⟩ | ⟨late,rfl,-⟩
    · cases inside with
      | nil =>
        rw [List.append_nil] at hends
        rw [hends] at hflatten
        simp [hne] at hflatten
      | cons p inside =>
        obtain ⟨rfl,-⟩ := List.cons.inj hinside
        have hlength := congrArg List.length (hends.trans hflatten.symm)
        simp only [List.flatten_append, List.flatten_cons, List.length_append,
          List.length_reverse, List.length_cons] at hlength
        omega
    · rw [List.flatten_append, hends] at hflatten
      have hlength := congrArg List.length hflatten
      have hpos := List.length_pos_iff.mpr hne
      simp only [List.length_append, List.length_reverse, List.length_nil] at hlength
      omega
  · intro hstart
    rw [if_pos hstart, sectionsFrom_eq]
    refine ⟨found ++ [under.reverse],_,(List.append_assoc _ _ _).symm,?_,?_⟩
    · rw [List.flatten_append, List.flatten_singleton, hflatten]
      rfl
    · rw [flatten_sectionsFrom]
      rfl

end AbcTune.Repeat
