import Mathlib.Data.List.Induction
import Mathlib.Data.List.Infix
import AbcTune.Fault
import AbcTune.Proofs.Repeat.Division
import AbcTune.Proofs.Text.Line
import AbcTune.Proofs.Text.Mark

/-! # What writing out repeats leaves alone

A tune is taken apart into its header and the sections of its body, and what becomes of the sections
is put together again behind the header. The pieces are the text without a gap, each section but
the first starts at a voice field, and no voice field is left inside a section. So the header is
kept in any case, and a body without a mark of repeats is kept as it is.
-/
namespace AbcTune.Repeat

open Text

variable {t body inner outer : Text} {done rest : List Text}

/-! ## The header -/

theorem append_of_splitAtKey {lines head tail : List Text}
    (h : splitAtKey lines = some (head,tail)) : head ++ tail = lines := by
  induction lines generalizing head with
  | nil => cases h
  | cons line lines ih =>
    rw [splitAtKey] at h
    split at h
    · cases h
      rfl
    · obtain ⟨⟨front,back⟩,hrest,heq⟩ := Option.map_eq_some_iff.mp h
      cases heq
      rw [List.cons_append, ih hrest]

theorem splitHeader_append (t : Text) : (splitHeader t).1 ++ (splitHeader t).2 = t := by
  unfold splitHeader
  cases hkey : splitAtKey (lineBlocks t) with
  | none => rfl
  | some parts =>
    have hlines : (parts.1 ++ parts.2).flatten = t := by
      rw [append_of_splitAtKey hkey, flatten_lineBlocks]
    rw [List.flatten_append] at hlines
    exact hlines

/-! ## The start of a line -/

/-- Behind this text only blanks have been passed in the line. -/
def AtLineStart (front : Text) : Prop :=
  ∃ before blanks, front = before ++ blanks ∧ (before = [] ∨ before.getLast? = some '\n') ∧
    ∀ c ∈ blanks, isBlank c = true

theorem onlyBlanks_iff (front : Text) : onlyBlanks true front = true ↔ AtLineStart front := by
  constructor
  · intro h
    induction front using List.reverseRecOn with
    | nil => exact ⟨[],[],rfl,.inl rfl,by simp⟩
    | append_singleton front c ih =>
      rw [onlyBlanks_append] at h
      by_cases hc : c = '\n'
      · exact ⟨front ++ [c],[],by simp,.inr (by simp [hc]),by simp⟩
      · have hboth : onlyBlanks true front = true ∧ isBlank c = true := by
          simpa [onlyBlanks, hc] using h
        obtain ⟨before,blanks,rfl,hbefore,hblanks⟩ := ih hboth.1
        refine ⟨before,blanks ++ [c],by simp,hbefore,fun d hd => ?_⟩
        rcases List.mem_append.mp hd with hd | hd
        · exact hblanks d hd
        · rw [List.mem_singleton.mp hd]
          exact hboth.2
  · rintro ⟨before,blanks,rfl,hbefore,hblanks⟩
    have hstart : onlyBlanks true before = true := by
      rcases hbefore with rfl | hfeed
      · rfl
      · exact onlyBlanks_lineFeed true hfeed
    rw [onlyBlanks_append, hstart]
    exact onlyBlanks_of_blank hblanks

theorem onlyBlanks_bracket (front : Text) : onlyBlanks true (front ++ ['[']) = false := by
  have hblank : isBlank '[' = false := by decide
  rw [onlyBlanks_append, onlyBlanks_cons, hblank, Bool.and_false]
  rfl

/-! ## Sections -/

theorem nil_notMem_sectionsFrom (current : Text) (lineStart : Bool) (t : Text) :
    [] ∉ sectionsFrom [] current lineStart t := by
  induction t generalizing current lineStart with
  | nil =>
    rw [sectionsFrom]
    cases current <;> simp
  | cons c t ih =>
    rw [sectionsFrom]
    split
    · next hstart =>
      have hcurrent : current ≠ [] := by
        rintro rfl
        simp at hstart
      rw [sectionsFrom_eq, List.mem_append, not_or]
      exact ⟨by simpa using hcurrent,ih [c] _⟩
    · exact ih (c :: current) _

theorem nil_notMem_sections (body : Text) : [] ∉ sections body :=
  nil_notMem_sectionsFrom [] true body

/-- A section starts where the one before it ends. -/
theorem startsSection_of_sections {s : Text} (h : sections body = done ++ s :: rest)
    (hdone : done ≠ []) :
    startsSection (onlyBlanks true done.flatten) (s ++ rest.flatten) = true := by
  have hmem : ∀ piece ∈ done ++ s :: rest, piece ≠ [] := by
    rintro piece hpiece rfl
    exact nil_notMem_sections body (h ▸ hpiece)
  have hfront : done.flatten ≠ [] := by
    obtain ⟨first,more,rfl⟩ := List.exists_cons_of_ne_nil hdone
    have hfirst := hmem first (by simp)
    simp [hfirst]
  have hback : s ++ rest.flatten ≠ [] := by
    have hs := hmem s (by simp)
    simp [hs]
  have hbody : done.flatten ++ (s ++ rest.flatten) = body := by
    rw [← flatten_sections body, h, List.flatten_append, List.flatten_cons]
  refine (dividedAt_iff hfront hback).mp ⟨done,s :: rest,?_,rfl,rfl⟩
  rw [hbody, h]

/-- Strictly inside a section no other one starts. -/
theorem not_startsSection_inside (h : sections body = done ++ (inner ++ outer) :: rest)
    (hinner : inner ≠ []) (houter : outer ≠ []) :
    ¬startsSection (onlyBlanks true (done.flatten ++ inner)) (outer ++ rest.flatten) = true := by
  intro hstart
  have hfront : done.flatten ++ inner ≠ [] := by simp [hinner]
  have hback : outer ++ rest.flatten ≠ [] := by simp [houter]
  have hbody : done.flatten ++ inner ++ (outer ++ rest.flatten) = body := by
    rw [← flatten_sections body, h, List.flatten_append, List.flatten_cons]
    simp only [List.append_assoc]
  obtain ⟨front,back,hsections,hflatten,-⟩ := (dividedAt_iff hfront hback).mpr hstart
  rw [hbody, h] at hsections
  -- the place is behind all sections that are done and before the end of the one that holds it
  have hlength := congrArg List.length hflatten
  have hinnerPos := List.length_pos_iff.mpr hinner
  have houterPos := List.length_pos_iff.mpr houter
  rcases List.append_eq_append_iff.mp hsections with ⟨late,rfl,hlate⟩ | ⟨early,rfl,-⟩
  · cases late with
    | nil => simp [hinner] at hflatten
    | cons piece late =>
      obtain ⟨rfl,-⟩ := List.cons.inj hlate
      simp only [List.flatten_append, List.flatten_cons, List.length_append] at hlength
      omega
  · simp only [List.flatten_append, List.length_append] at hlength
    omega

theorem head?_of_startsSection {lineStart : Bool} (h : startsSection lineStart t = true) :
    (lineStart = true ∧ t.head? = some 'V') ∨ t.head? = some '[' := by
  have hhead {c : Char} {mark : Text} (hmark : (c :: mark).isPrefixOf t = true) :
      t.head? = some c := by
    obtain ⟨after,rfl⟩ := List.isPrefixOf_iff_prefix.mp hmark
    rfl
  rw [startsSection, Bool.or_eq_true, Bool.and_eq_true] at h
  rcases h with ⟨hstart,hmark⟩ | hmark
  · exact .inl ⟨hstart,hhead hmark⟩
  · exact .inr (hhead hmark)

/-- A mark that is not cut in two stands in the first of two texts as a whole. -/
theorem prefix_of_uncut {mark s tail : Text} (h : mark <+: s ++ tail)
    (huncut : ∀ back, mark = s ++ back → back <+: tail → back = []) : mark <+: s := by
  rcases List.prefix_or_prefix_of_prefix h (List.prefix_append s tail) with hmark | ⟨back,hback⟩
  · exact hmark
  · have htail : back <+: tail := by
      rw [← hback] at h
      exact (List.prefix_append_right_inj s).mp h
    have hnil := huncut back hback.symm htail
    rw [hnil, List.append_nil] at hback
    rw [hback]

theorem prefix_of_sections {s : Text} (h : sections body = done ++ s :: rest) (hdone : done ≠ []) :
    ['V', ':'] <+: s ∨ ['[', 'V', ':'] <+: s := by
  have hne : s ≠ [] := by
    rintro rfl
    exact nil_notMem_sections body (by simp [h])
  -- what is left of a mark behind a section would have to start the next one
  have hnext {c : Char} {back : Text} (hback : c :: back <+: rest.flatten) :
      (onlyBlanks true (done.flatten ++ s) = true ∧ c = 'V') ∨ c = '[' := by
    obtain ⟨after,hafter⟩ := hback
    cases rest with
    | nil => cases hafter
    | cons next more =>
      have hdivided : sections body = (done ++ [s]) ++ next :: more := by simp [h]
      have hstart := startsSection_of_sections hdivided (by simp)
      rw [← List.flatten_cons, ← hafter] at hstart
      simpa using head?_of_startsSection hstart
  have hstart := startsSection_of_sections h hdone
  rw [startsSection, Bool.or_eq_true, Bool.and_eq_true, List.isPrefixOf_iff_prefix,
    List.isPrefixOf_iff_prefix] at hstart
  rcases hstart with ⟨-,hmark⟩ | hmark
  · refine .inl (prefix_of_uncut hmark fun back hsplit hback => ?_)
    rcases s with _ | ⟨a, _ | ⟨b,s⟩⟩
    · exact absurd rfl hne
    · cases hsplit
      simpa using hnext hback
    · have hrest : s ++ back = [] := by simpa using (congrArg (List.drop 2) hsplit).symm
      exact (List.append_eq_nil_iff.mp hrest).2
  · refine .inr (prefix_of_uncut hmark fun back hsplit hback => ?_)
    rcases s with _ | ⟨a, _ | ⟨b, _ | ⟨c,s⟩⟩⟩
    · exact absurd rfl hne
    · cases hsplit
      simpa [onlyBlanks_bracket] using hnext hback
    · cases hsplit
      simpa using hnext hback
    · have hrest : s ++ back = [] := by simpa using (congrArg (List.drop 3) hsplit).symm
      exact (List.append_eq_nil_iff.mp hrest).2

/-! ## Writing out -/

theorem expandSection_of_unmarked (h : ∀ mark ∈ [closing, opening, double], ¬mark <:+: t) :
    expandSection t = .ok t := by
  have hunmarked {a b : Char} (hmark : [a, b] ∈ [closing, opening, double]) :
      hasMark [a, b] t = false :=
    hasMark_eq_false_iff.mpr (freeOf_iff_not_isInfix.mpr (h _ hmark))
  have hclosing : hasMark closing t = false := hunmarked (by decide)
  have hopening : hasMark opening t = false := hunmarked (by decide)
  have hdouble : hasMark double t = false := hunmarked (by decide)
  rw [expandSection, hclosing, hopening, hdouble]
  rfl

theorem mapM_expandSection (h : ∀ s ∈ rest, expandSection s = .ok s) :
    rest.mapM expandSection = .ok rest := by
  induction rest with
  | nil => rfl
  | cons s rest ih =>
    obtain ⟨hs,hrest⟩ := List.forall_mem_cons.mp h
    rw [List.mapM_cons, hs, ih hrest]
    rfl

/-- The header and the sections of the body are the text, divided where it has to be: at the start
of a section a voice field is written, and inside of a section there is none, neither in brackets
nor as the first of its line. The header comes first in all that is written out, and if no mark of
repeats is in the body, then the whole text is. -/
theorem expand_preserves (t : Text) :
    let header := (splitHeader t).1
    let body := (splitHeader t).2
    header ++ body = t ∧
    (sections body).flatten = body ∧
    (∀ s ∈ sections body, s ≠ []) ∧
    (∀ s ∈ (sections body).tail, ['V', ':'] <+: s ∨ ['[', 'V', ':'] <+: s) ∧
    (∀ done inner outer rest, sections body = done ++ (inner ++ outer) :: rest →
      inner ≠ [] → outer ≠ [] →
        ¬['[', 'V', ':'] <+: outer ++ rest.flatten ∧
          ¬(AtLineStart (done.flatten ++ inner) ∧ ['V', ':'] <+: outer ++ rest.flatten)) ∧
    (∀ u, expand t = .ok u → header <+: u) ∧
    ((∀ mark ∈ [closing, opening, double], ¬mark <:+: body) → expand t = .ok t) := by
  intro header body
  refine ⟨splitHeader_append t,flatten_sections body,?_,?_,?_,?_,?_⟩
  · rintro s hs rfl
    exact nil_notMem_sections body hs
  · intro s hs
    obtain ⟨passed,rest,htail⟩ := List.append_of_mem hs
    obtain ⟨first,hfirst⟩ : ∃ first, sections body = first :: (sections body).tail := by
      cases hsections : sections body with
      | nil => simp [hsections] at hs
      | cons first more => exact ⟨first,rfl⟩
    have hsections : sections body = (first :: passed) ++ s :: rest := by rw [hfirst, htail]; rfl
    exact prefix_of_sections hsections (List.cons_ne_nil first passed)
  · intro done inner outer rest hsections hinner houter
    have hinside := not_startsSection_inside hsections hinner houter
    rw [startsSection, Bool.or_eq_true, Bool.and_eq_true, not_or, onlyBlanks_iff,
      List.isPrefixOf_iff_prefix, List.isPrefixOf_iff_prefix] at hinside
    exact hinside.symm
  · intro u hu
    obtain ⟨parts,-,heq⟩ := exists_of_bind_ok hu
    cases heq
    exact List.prefix_append header parts.flatten
  · intro hmarks
    have hsections : (sections body).mapM expandSection = .ok (sections body) := by
      refine mapM_expandSection fun s hs => expandSection_of_unmarked fun mark hmark hinfix => ?_
      have hinBody := hinfix.trans (List.infix_of_mem_flatten hs)
      rw [flatten_sections] at hinBody
      exact hmarks mark hmark hinBody
    calc expand t
        = ((sections body).mapM expandSection >>= fun parts => .ok (header ++ parts.flatten)) := rfl
      _ = .ok (header ++ body) := by rw [hsections, ok_bind, flatten_sections]
      _ = .ok t := congrArg Except.ok (splitHeader_append t)

/-- Two voices in brackets and an indented voice field, behind a key line with a mark of its own. -/
theorem expand_preserves_voices :
    let t := "X:1\nK:C |:\n A[V:1]BV:\n\t V:2\nC:[V:3|\n".toList
    sections (splitHeader t).2 = [" A".toList, "[V:1]BV:\n\t ".toList, "V:2\nC:".toList,
        "[V:3|\n".toList] ∧
      (∀ mark ∈ [closing, opening, double], ¬mark <:+: (splitHeader t).2) ∧
      expand t = .ok t := by
  intro t
  have hmarks : ∀ mark ∈ [closing, opening, double], ¬mark <:+: (splitHeader t).2 := by
    have hheader : (splitHeader t).2 = " A[V:1]BV:\n\t V:2\nC:[V:3|\n".toList := by decide +kernel
    rw [hheader]
    decide +kernel
  obtain ⟨-,-,-,-,-,-,hunmarked⟩ := expand_preserves t
  exact ⟨by decide +kernel,hmarks,hunmarked hmarks⟩

end AbcTune.Repeat
