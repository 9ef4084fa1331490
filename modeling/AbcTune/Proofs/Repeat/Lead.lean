import AbcTune.Proofs.Repeat.Nesting
import AbcTune.Proofs.Text.Line
import AbcTune.Fault
import AbcTune.Token

/-! # Marks before the music

Without an opening mark a repeat starts with the music. What comes before the music is told by the
look of its lines, and a line such as `a:|` looks like a field: the mark that ends the repeat then
stands before the music that it would repeat. That is the only way in which repeats cannot be
written out and the text does not grow too long.
-/
namespace AbcTune.Repeat

open Text

/-- A mark stands in the voice field in brackets that its line starts with. -/
def InVoiceField (before after : Text) : Prop :=
  ['[', 'V', ':'].isPrefixOf (trimStart (before ++ closing ++ after)) = true ∧
    ']' ∉ before ∧ ']' ∈ after

/-- The first closing mark of a text stands in a line that looks like a field, or in the voice
field that the line starts with. All lines before it look like fields, and no repeat is opened. -/
def ClosesInLead (t : Text) : Prop :=
  ∃ lead before after rest, lineBlocks t = lead ++ (before ++ closing ++ after) :: rest ∧
    FreeOf ':' '|' (lead.flatten ++ before) ∧ FreeOf '|' ':' (lead.flatten ++ before) ∧
    (∀ line ∈ lead, isField (trimStart line) = true) ∧
    (isField (trimStart (before ++ closing ++ after)) = true ∨ InVoiceField before after)

/-- What is left of a text when the repeats at its first closing marks have been written out, a
number of them. -/
inductive Becomes : Nat → Text → Text → Prop where
  | refl (t : Text) : Becomes 0 t t
  | step {n : Nat} {t before after next u : Text} (hcut : cutMark closing t = some (before,after))
      (hnext : writeOut t before after = .ok next) (hsize : byteLength next ≤ mostBytes)
      (h : Becomes n next u) : Becomes (n + 1) t u

/-! ## The lead of a text -/

theorem leadLength_of_isField {line : Text} (h : isField (trimStart line) = true)
    (rest : List Text) : leadLength (line :: rest) = line.length + leadLength rest := by
  rw [leadLength, h]
  rfl

theorem leadLength_of_not_isField {line : Text} (h : isField (trimStart line) = false)
    (rest : List Text) :
    leadLength (line :: rest) =
      if ['[', 'V', ':'].isPrefixOf (trimStart line) then
        ((cutAt ']' line).map fun p => p.1.length + 1).getD 0
      else 0 := by
  rw [leadLength, h]
  cases cutAt ']' line <;> rfl

theorem leadLength_le_of_not_isField {line : Text} (h : isField (trimStart line) = false)
    (rest : List Text) : leadLength (line :: rest) ≤ line.length := by
  rw [leadLength_of_not_isField h]
  split
  · by_cases hclose : ']' ∈ line
    · obtain ⟨before,after,rfl,hbefore⟩ := List.eq_append_cons_of_mem hclose
      rw [cutAt_append hbefore]
      simp
    · rw [cutAt_of_notMem hclose]
      exact Nat.zero_le _
  · exact Nat.zero_le _

theorem leadLength_le (lines : List Text) : leadLength lines ≤ lines.flatten.length := by
  induction lines with
  | nil => exact le_rfl
  | cons line rest ih =>
    rw [List.flatten_cons, List.length_append]
    cases hfield : isField (trimStart line) with
    | false =>
      have hle := leadLength_le_of_not_isField hfield rest
      omega
    | true =>
      rw [leadLength_of_isField hfield]
      omega

/-- The lead of a text is a part of it. -/
theorem musicStart_le (t : Text) : musicStart t ≤ t.length := by
  have h := leadLength_le (lineBlocks t)
  rwa [flatten_lineBlocks] at h

/-- A mark of a line stands before the first bracket that closes if no bracket closes before it. -/
theorem lt_cutAt_iff {before after : Text} :
    before.length <
        ((cutAt ']' (before ++ closing ++ after)).map fun p => p.1.length + 1).getD 0 ↔
      ']' ∉ before ∧ ']' ∈ after := by
  by_cases hbefore : ']' ∈ before
  · obtain ⟨front,back,rfl,hfront⟩ := List.eq_append_cons_of_mem hbefore
    rw [List.append_assoc, List.append_assoc, List.cons_append, cutAt_append hfront]
    simp
  · by_cases hafter : ']' ∈ after
    · obtain ⟨front,back,rfl,hfront⟩ := List.eq_append_cons_of_mem hafter
      have hpassed : ']' ∉ before ++ closing ++ front := by simp [closing, hbefore, hfront]
      rw [← List.append_assoc, cutAt_append hpassed]
      have hlength : before.length < (before ++ closing ++ front).length + 1 := by
        simp only [List.length_append]
        omega
      exact iff_of_true hlength ⟨hbefore, List.mem_append_right _ List.mem_cons_self⟩
    · have hnone : ']' ∉ before ++ closing ++ after := by simp [closing, hbefore, hafter]
      rw [cutAt_of_notMem hnone]
      simp [hafter]

theorem lt_leadLength_iff (lead : List Text) (before after : Text) (rest : List Text) :
    lead.flatten.length + before.length <
        leadLength (lead ++ (before ++ closing ++ after) :: rest) ↔
      (∀ line ∈ lead, isField (trimStart line) = true) ∧
        (isField (trimStart (before ++ closing ++ after)) = true ∨ InVoiceField before after) := by
  induction lead with
  | nil =>
    rw [List.nil_append]
    cases hfield : isField (trimStart (before ++ closing ++ after)) with
    | true =>
      rw [leadLength_of_isField hfield]
      refine iff_of_true ?_ ⟨fun _ hline => absurd hline List.not_mem_nil,.inl rfl⟩
      simp only [List.flatten_nil, List.length_nil, List.length_append, closing, List.length_cons]
      omega
    | false =>
      rw [leadLength_of_not_isField hfield]
      unfold InVoiceField
      split
      · next hvoice =>
        simp only [List.flatten_nil, List.length_nil, Nat.zero_add, List.not_mem_nil,
          false_implies, implies_true, true_and, Bool.false_eq_true, false_or, hvoice]
        exact lt_cutAt_iff
      · next hvoice =>
        refine iff_of_false (Nat.not_lt_zero _) ?_
        rintro ⟨-,h | h⟩
        · cases h
        · exact hvoice h.1
  | cons line lead ih =>
    rw [List.cons_append, List.flatten_cons, List.length_append, List.forall_mem_cons]
    cases hfield : isField (trimStart line) with
    | true =>
      rw [leadLength_of_isField hfield, Nat.add_assoc, Nat.add_lt_add_iff_left, ih]
      simp
    | false =>
      have hle := leadLength_le_of_not_isField hfield (lead ++ (before ++ closing ++ after) :: rest)
      refine iff_of_false (by omega) ?_
      simp

theorem closesInLead_iff {t : Text} :
    ClosesInLead t ↔ ∃ before after, cutMark closing t = some (before,after) ∧
      FreeOf '|' ':' before ∧ before.length < musicStart t := by
  constructor
  · rintro ⟨lead,before,after,rest,hlines,hclosing,hopening,hlead⟩
    refine ⟨lead.flatten ++ before,after ++ rest.flatten,?_,hopening,?_⟩
    · refine (cutMark_eq_some_iff (by decide)).mpr ⟨?_,hclosing⟩
      rw [← flatten_lineBlocks t, hlines]
      simp [closing]
    · rw [musicStart, hlines, List.length_append]
      exact (lt_leadLength_iff lead before after rest).mpr hlead
  · rintro ⟨before,after,hcut,hopening,hstart⟩
    obtain ⟨rfl,hclosing⟩ := (cutMark_eq_some_iff (by decide)).mp hcut
    have hmark : closing ≠ [] := by decide
    have hfeed : '\n' ∉ closing := by decide
    obtain ⟨lead,front,back,rest,hlines,rfl⟩ := lineBlocks_mark hmark hfeed before after
    refine ⟨lead,front,back,rest,hlines,hclosing,hopening,?_⟩
    change _ < leadLength (lineBlocks (_ ++ closing ++ after)) at hstart
    rw [hlines, List.length_append] at hstart
    exact (lt_leadLength_iff lead front back rest).mp hstart

/-! ## Writing out -/

theorem repeatedPart_eq_error_iff {t before : Text} {e : Failure} :
    repeatedPart t before = .error e ↔
      e = .startAfterEnd ∧ FreeOf '|' ':' before ∧ before.length < musicStart t := by
  have hopening : FreeOf '|' ':' before ↔ cutLastMark opening before = none :=
    cutLastMark_eq_none_iff.symm
  unfold repeatedPart
  rw [hopening]
  cases cutLastMark opening before with
  | some parts => simp
  | none =>
    dsimp only
    split
    · next hle => simp [Nat.not_lt.mpr hle]
    · next hlt => simp [Nat.not_le.mp hlt, eq_comm]

theorem writeOut_eq_error_iff {t before after : Text} {e : Failure} :
    writeOut t before after = .error e ↔
      e = .startAfterEnd ∧ FreeOf '|' ':' before ∧ before.length < musicStart t := by
  rw [← repeatedPart_eq_error_iff, writeOut, bind_eq_error_iff]
  refine or_iff_left ?_
  rintro ⟨⟨lead,content⟩,-,h⟩
  dsimp only at h
  split at h <;> cases h

/-- The texts that a closing mark leads to. -/
theorem becomes_iff {n : Nat} {t u before after : Text}
    (hcut : cutMark closing t = some (before,after)) :
    Becomes n t u ↔ (n = 0 ∧ t = u) ∨ ∃ m next, n = m + 1 ∧ writeOut t before after = .ok next ∧
      byteLength next ≤ mostBytes ∧ Becomes m next u := by
  constructor
  · intro h
    cases h with
    | refl => exact .inl ⟨rfl,rfl⟩
    | step hcut' hnext hsize h =>
      rw [hcut] at hcut'
      cases hcut'
      exact .inr ⟨_,_,rfl,hnext,hsize,h⟩
  · rintro (⟨rfl,rfl⟩ | ⟨m,next,rfl,hnext,hsize,h⟩)
    · exact .refl t
    · exact .step hcut hnext hsize h

theorem not_closesInLead_of_becomes {n : Nat} {t u : Text} (hcut : cutMark closing t = none)
    (h : Becomes n t u) : ¬ClosesInLead u := by
  rw [closesInLead_iff]
  rintro ⟨before,after,hu,-⟩
  cases h with
  | refl =>
    rw [hcut] at hu
    cases hu
  | step hcut' _ _ _ =>
    rw [hcut] at hcut'
    cases hcut'

theorem writeOutAll_eq_startAfterEnd_iff (fuel : Nat) (t : Text) :
    writeOutAll fuel t = .error .startAfterEnd ↔
      ∃ n < fuel, ∃ u, Becomes n t u ∧ ClosesInLead u := by
  induction fuel generalizing t with
  | zero => simp [writeOutAll]
  | succ fuel ih =>
    rw [writeOutAll]
    cases hcut : cutMark closing t with
    | none =>
      refine iff_of_false (by simp) ?_
      rintro ⟨n,-,u,hu,hlead⟩
      exact not_closesInLead_of_becomes hcut hu hlead
    | some p =>
      obtain ⟨before,after⟩ := p
      dsimp only
      cases hnext : writeOut t before after with
      | error e =>
        obtain ⟨rfl,hopening,hstart⟩ := writeOut_eq_error_iff.mp hnext
        refine iff_of_true rfl ⟨0,Nat.succ_pos fuel,t,.refl t,?_⟩
        exact closesInLead_iff.mpr ⟨before,after,hcut,hopening,hstart⟩
      | ok next =>
        -- The mark at hand is written out, so the one that cannot be comes later.
        have hlater : ¬ClosesInLead t := by
          rw [closesInLead_iff]
          rintro ⟨before',after',hcut',hopening,hstart⟩
          rw [hcut] at hcut'
          cases hcut'
          have herror : writeOut t before after = .error .startAfterEnd :=
            writeOut_eq_error_iff.mpr ⟨rfl,hopening,hstart⟩
          rw [hnext] at herror
          cases herror
        have hsteps : (∃ n < fuel + 1, ∃ u, Becomes n t u ∧ ClosesInLead u) ↔
            byteLength next ≤ mostBytes ∧ ∃ n < fuel, ∃ u, Becomes n next u ∧ ClosesInLead u := by
          constructor
          · rintro ⟨n,hn,u,hu,hlead⟩
            rcases (becomes_iff hcut).mp hu with ⟨rfl,rfl⟩ | ⟨m,next',rfl,hnext',hsize,hu⟩
            · exact absurd hlead hlater
            · rw [hnext] at hnext'
              cases hnext'
              exact ⟨hsize,m,Nat.lt_of_succ_lt_succ hn,u,hu,hlead⟩
          · rintro ⟨hsize,n,hn,u,hu,hlead⟩
            exact ⟨n + 1,Nat.succ_lt_succ hn,u,.step hcut hnext hsize hu,hlead⟩
        rw [ok_bind, hsteps, ← ih next]
        split
        · next hbig => simp [Nat.not_le.mpr hbig]
        · next hsmall => simp [Nat.not_lt.mp hsmall]

/-- Text without marks stays as it is, and has no mark to be treated. -/
theorem expandSection_eq_startAfterEnd_iff (s : Text) :
    expandSection s = .error .startAfterEnd ↔
      ∃ n < mostExpansions, ∃ u, Becomes n (splitDoubles s) u ∧ ClosesInLead u := by
  rw [← writeOutAll_eq_startAfterEnd_iff]
  unfold expandSection
  split
  · exact Iff.rfl
  · next hmarks =>
    simp only [Bool.or_eq_true, not_or, Bool.not_eq_true] at hmarks
    obtain ⟨⟨hclosing,-⟩,hdouble⟩ := hmarks
    have hdoubles : splitDoubles s = s :=
      splitDoublesFrom_of_freeOf [] (hasMark_eq_false_iff.mp hdouble)
    have hcut : cutMark closing s = none :=
      cutMark_eq_none_iff.mpr (hasMark_eq_false_iff.mp hclosing)
    rw [hdoubles, writeOutAll_eq_startAfterEnd_iff]
    refine iff_of_false (by simp) ?_
    rintro ⟨n,-,u,hu,hlead⟩
    exact not_closesInLead_of_becomes hcut hu hlead

/-! ## Whole texts -/

/-- The lead of a text is never longer than the text, and the repeats of a text are written out or
known to be too long, unless in one of its sections, before any other is too long, the first closing
mark comes to stand in the lead. -/
theorem expand_eq_startAfterEnd_iff (t : Text) :
    (∀ u : Text, musicStart u ≤ u.length) ∧
      (expand t = .error .startAfterEnd ↔
        ∃ passed s rest, sections (splitHeader t).2 = passed ++ s :: rest ∧
          (∀ p ∈ passed, ∃ written, expandSection p = .ok written) ∧
          ∃ n < mostExpansions, ∃ u, Becomes n (splitDoubles s) u ∧ ClosesInLead u) := by
  refine ⟨musicStart_le,?_⟩
  have hparts : expand t = .error .startAfterEnd ↔
      (sections (splitHeader t).2).mapM expandSection = .error .startAfterEnd := by
    unfold expand
    dsimp only
    rw [bind_eq_error_iff]
    refine or_iff_left ?_
    rintro ⟨parts,-,h⟩
    cases h
  rw [hparts, mapM_eq_error_iff]
  simp only [expandSection_eq_startAfterEnd_iff]

/-- Read as a line, the text is a note and a mark. Its repeat starts behind it. -/
theorem expand_keyless : isFieldLine "a:|".toList = false ∧
    expand "a:|".toList = .error .startAfterEnd := by
  decide +kernel

end AbcTune.Repeat
