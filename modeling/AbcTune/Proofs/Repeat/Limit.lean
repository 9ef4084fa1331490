import AbcTune.Proofs.Repeat.Lead

/-! # The limit on repeats

Closing marks are treated one after another, and before each of them it is asked whether one is
left. The count of marks that may be treated is used up before it is asked for the last time, so
that a text with exactly as many marks as the limit names is refused, although none of its marks
is left and no text on the way was too long.
-/
namespace AbcTune.Repeat

open Text

/-- Writing out the repeat at the first closing mark makes a text too long. -/
def Overflows (t : Text) : Prop :=
  ∃ before after next, cutMark closing t = some (before,after) ∧
    writeOut t before after = .ok next ∧ mostBytes < byteLength next

theorem hasMark_closing_of_cutMark {t before after : Text}
    (h : cutMark closing t = some (before,after)) : hasMark closing t = true := by
  rw [hasMark, h]
  rfl

/-- A text without a closing mark stays what it is. -/
theorem becomes_iff_of_settled {n : Nat} {t u : Text} (hmark : hasMark closing t = false) :
    Becomes n t u ↔ n = 0 ∧ t = u := by
  constructor
  · intro h
    cases h with
    | refl => exact ⟨rfl,rfl⟩
    | step hcut _ _ _ =>
      rw [hasMark_closing_of_cutMark hcut] at hmark
      cases hmark
  · rintro ⟨rfl,rfl⟩
    exact .refl t

theorem not_overflows_of_settled {t : Text} (hmark : hasMark closing t = false) :
    ¬ Overflows t := by
  rintro ⟨before,after,next,hcut,-⟩
  rw [hasMark_closing_of_cutMark hcut] at hmark
  cases hmark

/-! ## How writing out ends -/

section Steps

variable {fuel : Nat} {t before after : Text} (hcut : cutMark closing t = some (before,after))

include hcut

theorem writeOutAll_succ (fuel : Nat) :
    writeOutAll (fuel + 1) t = writeOut t before after >>= fun next =>
      if mostBytes < byteLength next then .error .limit else writeOutAll fuel next := by
  rw [writeOutAll, hcut]

/-- What can be said of a text behind a mark that is treated is said of the text that it leads
to. -/
theorem exists_becomes_iff {P : Text → Prop} (hP : ¬ P t) :
    (∃ n < fuel + 1, ∃ u, Becomes n t u ∧ P u) ↔
      ∃ next, writeOut t before after = .ok next ∧ byteLength next ≤ mostBytes ∧
        ∃ n < fuel, ∃ u, Becomes n next u ∧ P u := by
  constructor
  · rintro ⟨n,hn,u,hu,hPu⟩
    rcases (becomes_iff hcut).mp hu with ⟨rfl,rfl⟩ | ⟨m,next,rfl,hnext,hsize,hu⟩
    · exact absurd hPu hP
    · exact ⟨next,hnext,hsize,m,Nat.lt_of_succ_lt_succ hn,u,hu,hPu⟩
  · rintro ⟨next,hnext,hsize,n,hn,u,hu,hPu⟩
    exact ⟨n + 1,Nat.succ_lt_succ hn,u,.step hcut hnext hsize hu,hPu⟩

theorem exists_becomes_succ_iff :
    (∃ u, Becomes (fuel + 1) t u) ↔
      ∃ next, writeOut t before after = .ok next ∧ byteLength next ≤ mostBytes ∧
        ∃ u, Becomes fuel next u := by
  constructor
  · rintro ⟨u,hu⟩
    rcases (becomes_iff hcut).mp hu with ⟨h,-⟩ | ⟨m,next,h,hnext,hsize,hu⟩
    · cases h
    · cases h
      exact ⟨next,hnext,hsize,u,hu⟩
  · rintro ⟨next,hnext,hsize,u,hu⟩
    exact ⟨u,.step hcut hnext hsize hu⟩

theorem overflows_iff :
    Overflows t ↔ ∃ next, writeOut t before after = .ok next ∧ mostBytes < byteLength next := by
  constructor
  · rintro ⟨before',after',next,hcut',hnext,hsize⟩
    cases hcut.symm.trans hcut'
    exact ⟨next,hnext,hsize⟩
  · rintro ⟨next,hnext,hsize⟩
    exact ⟨before,after,next,hcut,hnext,hsize⟩

end Steps

theorem writeOutAll_eq_ok_iff (fuel : Nat) (t r : Text) :
    writeOutAll fuel t = .ok r ↔ ∃ n < fuel, ∃ u, Becomes n t u ∧
      hasMark closing u = false ∧ r = replacePair '|' ':' ['|'] u := by
  induction fuel generalizing t with
  | zero => simp [writeOutAll]
  | succ fuel ih =>
    cases hcut : cutMark closing t with
    | none =>
      have hmark : hasMark closing t = false := by rw [hasMark, hcut]; rfl
      rw [writeOutAll, hcut]
      constructor
      · intro h
        exact ⟨0,Nat.succ_pos fuel,t,.refl t,hmark,(Except.ok.inj h).symm⟩
      · rintro ⟨n,-,u,hu,-,rfl⟩
        obtain ⟨-,rfl⟩ := (becomes_iff_of_settled hmark).mp hu
        rfl
    | some p =>
      obtain ⟨before,after⟩ := p
      have hmark := hasMark_closing_of_cutMark hcut
      rw [writeOutAll_succ hcut, exists_becomes_iff hcut (by simp [hmark])]
      constructor
      · intro h
        obtain ⟨next,hnext,h⟩ := exists_of_bind_ok h
        split at h
        · cases h
        · next hsize => exact ⟨next,hnext,Nat.not_lt.mp hsize,(ih next).mp h⟩
      · rintro ⟨next,hnext,hsize,h⟩
        rw [hnext, ok_bind, if_neg (Nat.not_lt.mpr hsize)]
        exact (ih next).mpr h

/-- What one step more allows takes as many steps. -/
theorem becomes_of_fuel {n : Nat} {t r : Text} {e : Failure} (hlast : writeOutAll (n + 1) t = .ok r)
    (hshort : writeOutAll n t = .error e) : ∃ u, Becomes n t u ∧ hasMark closing u = false := by
  obtain ⟨m,hm,u,hu,hmark,hr⟩ := (writeOutAll_eq_ok_iff (n + 1) t r).mp hlast
  rcases Nat.lt_succ_iff_lt_or_eq.mp hm with hlt | rfl
  · have hok := (writeOutAll_eq_ok_iff n t r).mpr ⟨m,hlt,u,hu,hmark,hr⟩
    cases hshort.symm.trans hok
  · exact ⟨u,hu,hmark⟩

/-- The marks that may be treated are used up, or one of them makes the text too long. -/
theorem writeOutAll_eq_limit_iff (fuel : Nat) (t : Text) :
    writeOutAll fuel t = .error .limit ↔
      (∃ u, Becomes fuel t u) ∨ ∃ n < fuel, ∃ u, Becomes n t u ∧ Overflows u := by
  induction fuel generalizing t with
  | zero => exact iff_of_true rfl (.inl ⟨t,.refl t⟩)
  | succ fuel ih =>
    cases hcut : cutMark closing t with
    | none =>
      have hmark : hasMark closing t = false := by rw [hasMark, hcut]; rfl
      rw [writeOutAll, hcut]
      refine iff_of_false (by simp) ?_
      rintro (⟨u,hu⟩ | ⟨n,-,u,hu,hover⟩)
      · cases ((becomes_iff_of_settled hmark).mp hu).1
      · obtain ⟨-,rfl⟩ := (becomes_iff_of_settled hmark).mp hu
        exact not_overflows_of_settled hmark hover
    | some p =>
      obtain ⟨before,after⟩ := p
      rw [writeOutAll_succ hcut, exists_becomes_succ_iff hcut]
      by_cases hover : Overflows t
      · obtain ⟨next,hnext,hsize⟩ := (overflows_iff hcut).mp hover
        rw [hnext, ok_bind, if_pos hsize]
        exact iff_of_true rfl (.inr ⟨0,Nat.succ_pos fuel,t,.refl t,hover⟩)
      · rw [exists_becomes_iff hcut hover]
        constructor
        · intro h
          rcases bind_eq_error_iff.mp h with h | ⟨next,hnext,h⟩
          · cases (writeOut_eq_error_iff.mp h).1
          · split at h
            · next hsize => exact absurd ((overflows_iff hcut).mpr ⟨next,hnext,hsize⟩) hover
            · next hsize =>
              have hsize := Nat.not_lt.mp hsize
              exact ((ih next).mp h).imp (fun h => ⟨next,hnext,hsize,h⟩)
                fun h => ⟨next,hnext,hsize,h⟩
        · rintro (⟨next,hnext,hsize,h⟩ | ⟨next,hnext,hsize,h⟩) <;>
            rw [hnext, ok_bind, if_neg (Nat.not_lt.mpr hsize)]
          · exact (ih next).mpr (.inl h)
          · exact (ih next).mpr (.inr h)

/-- Text without marks stays as it is whether or not it is asked for them. -/
theorem expandSection_eq_writeOutAll (s : Text) :
    expandSection s = writeOutAll mostExpansions (splitDoubles s) := by
  unfold expandSection
  split
  · rfl
  · next hmarks =>
    simp only [Bool.or_eq_true, not_or, Bool.not_eq_true] at hmarks
    obtain ⟨⟨hclosing,hopening⟩,hdouble⟩ := hmarks
    have hdoubles : splitDoubles s = s :=
      splitDoublesFrom_of_freeOf [] (hasMark_eq_false_iff.mp hdouble)
    rw [hdoubles, eq_comm, writeOutAll_eq_ok_iff]
    refine ⟨0,by decide,s,.refl s,hclosing,?_⟩
    exact (replacePair_of_freeOf _ (hasMark_eq_false_iff.mp hopening)).symm

/-! ## Whole sections -/

/-- A section is written out just if fewer marks than the limit have to be treated until none is
left, and it is refused for the limit just if as many can be treated, whether or not one is left
then, or if one of them makes the text too long. So of the sections that no text on the way of which
is too long, and that are settled when at most so many marks as the limit names have been treated,
those with exactly so many are refused, and they alone. -/
theorem expandSection_limited (s : Text) :
    (∀ t, expandSection s = .ok t ↔ ∃ n < mostExpansions, ∃ u, Becomes n (splitDoubles s) u ∧
      hasMark closing u = false ∧ t = replacePair '|' ':' ['|'] u) ∧
    (expandSection s = .error .limit ↔ (∃ u, Becomes mostExpansions (splitDoubles s) u) ∨
      ∃ n < mostExpansions, ∃ u, Becomes n (splitDoubles s) u ∧ Overflows u) ∧
    ∀ n ≤ mostExpansions, ∀ u, Becomes n (splitDoubles s) u → hasMark closing u = false →
      ((∃ t, expandSection s = .ok t) ↔ n ≠ mostExpansions) ∧
        (expandSection s = .error .limit ↔ n = mostExpansions) := by
  have hok (t : Text) := writeOutAll_eq_ok_iff mostExpansions (splitDoubles s) t
  have hlimit := writeOutAll_eq_limit_iff mostExpansions (splitDoubles s)
  rw [← expandSection_eq_writeOutAll] at hlimit
  simp only [← expandSection_eq_writeOutAll] at hok
  refine ⟨hok,hlimit,fun n hn u hu hmark => ?_⟩
  have hwritten : n < mostExpansions → ∃ t, expandSection s = .ok t :=
    fun hlt => ⟨_,(hok _).mpr ⟨n,hlt,u,hu,hmark,rfl⟩⟩
  have hrefused : n = mostExpansions → expandSection s = .error .limit :=
    fun heq => hlimit.mpr (.inl ⟨u,heq ▸ hu⟩)
  refine ⟨⟨?_,fun hne => hwritten (Nat.lt_of_le_of_ne hn hne)⟩,?_,hrefused⟩
  · rintro ⟨t,ht⟩ heq
    cases ht.symm.trans (hrefused heq)
  · intro herror
    by_contra hne
    obtain ⟨t,ht⟩ := hwritten (Nat.lt_of_le_of_ne hn hne)
    cases ht.symm.trans herror

/-- As many closing marks and nothing else. -/
def closings (n : Nat) : Text := (List.replicate n closing).flatten

/-- Sixty-three marks are written out. -/
theorem expandSection_limited_below :
    ∃ u, Becomes 63 (splitDoubles (closings 63)) u ∧ hasMark closing u = false ∧
      63 ≤ mostExpansions ∧ ∃ t, expandSection (closings 63) = .ok t := by
  have hlast : writeOutAll 64 (splitDoubles (closings 63)) = .ok [] := by decide +kernel
  have hshort : writeOutAll 63 (splitDoubles (closings 63)) = .error .limit := by decide +kernel
  obtain ⟨u,hu,hmark⟩ := becomes_of_fuel hlast hshort
  have hmost : 63 ≤ mostExpansions := by decide
  obtain ⟨-,-,hexact⟩ := expandSection_limited (closings 63)
  exact ⟨u,hu,hmark,hmost,(hexact 63 hmost u hu hmark).1.mpr (by decide)⟩

/-- Sixty-four marks are refused, although as many steps leave none of them. -/
theorem expandSection_limited_reached :
    ∃ u, Becomes mostExpansions (splitDoubles (closings 64)) u ∧ hasMark closing u = false ∧
      byteLength (closings 64) = 128 ∧ expandSection (closings 64) = .error .limit := by
  have hlast : writeOutAll 65 (splitDoubles (closings 64)) = .ok [] := by decide +kernel
  have hshort : writeOutAll mostExpansions (splitDoubles (closings 64)) = .error .limit := by
    decide +kernel
  obtain ⟨u,hu,hmark⟩ := becomes_of_fuel hlast hshort
  exact ⟨u,hu,hmark,by decide +kernel,(expandSection_eq_writeOutAll _).trans hshort⟩

end AbcTune.Repeat
