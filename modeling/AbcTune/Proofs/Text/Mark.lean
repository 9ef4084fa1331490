import Mathlib.Data.List.Chain
import AbcTune.Text.Cut

/-! # Texts that are free of a mark

A mark of two characters is missing from a text exactly when no neighbours in it are the two
characters. Stated for neighbours this splits over appended texts, with one condition on the seam,
and it settles where the first and the last occurrence of a mark are cut.
-/
namespace AbcTune.Text

variable {a b : Char} {s t : Text}

/-- Nowhere in the text does `b` directly follow `a`. -/
def FreeOf (a b : Char) (t : Text) : Prop := t.IsChain fun x y => ¬(x = a ∧ y = b)

@[simp] theorem freeOf_nil : FreeOf a b [] := List.isChain_nil

@[simp] theorem freeOf_singleton (x : Char) : FreeOf a b [x] := List.isChain_singleton x

theorem freeOf_cons {x : Char} :
    FreeOf a b (x :: t) ↔ ¬(x = a ∧ t.head? = some b) ∧ FreeOf a b t := by
  unfold FreeOf
  rw [List.isChain_cons]
  constructor
  · rintro ⟨h,ht⟩
    exact ⟨fun ⟨hx,hb⟩ => h b hb ⟨hx,rfl⟩,ht⟩
  · rintro ⟨h,ht⟩
    exact ⟨fun y hy ⟨hx,hb⟩ => h ⟨hx,hb ▸ hy⟩,ht⟩

/-- Only the seam of two texts can hold a mark that neither of them holds. -/
theorem freeOf_append :
    FreeOf a b (s ++ t) ↔
      FreeOf a b s ∧ FreeOf a b t ∧ ¬(s.getLast? = some a ∧ t.head? = some b) := by
  unfold FreeOf
  rw [List.isChain_append]
  constructor
  · rintro ⟨hs,ht,h⟩
    exact ⟨hs,ht,fun ⟨ha,hb⟩ => h a ha b hb ⟨rfl,rfl⟩⟩
  · rintro ⟨hs,ht,h⟩
    refine ⟨hs,ht,?_⟩
    rintro x hx y hy ⟨rfl,rfl⟩
    exact h ⟨hx,hy⟩

theorem freeOf_of_first_notMem (h : a ∉ t) : FreeOf a b t := by
  induction t with
  | nil => exact freeOf_nil
  | cons x t ih =>
    rw [List.mem_cons, not_or] at h
    exact freeOf_cons.mpr ⟨fun hx => h.1 hx.1.symm,ih h.2⟩

theorem freeOf_of_second_notMem (h : b ∉ t) : FreeOf a b t := by
  induction t with
  | nil => exact freeOf_nil
  | cons x t ih =>
    rw [List.mem_cons, not_or] at h
    refine freeOf_cons.mpr ⟨fun hx => ?_,ih h.2⟩
    exact h.2 (List.mem_of_mem_head? hx.2)

theorem freeOf_iff_not_isInfix : FreeOf a b t ↔ ¬[a, b] <:+: t := by
  induction t with
  | nil => simp
  | cons x t ih =>
    have hfront : [a, b] <+: x :: t ↔ x = a ∧ t.head? = some b := by
      cases t with
      | nil => simp
      | cons y t => simp [eq_comm]
    rw [freeOf_cons, ih, List.infix_cons_iff, hfront, not_or]

/-! ## Cutting at a character -/

theorem cutAt_append {sep : Char} {before : Text} (h : sep ∉ before) (after : Text) :
    cutAt sep (before ++ sep :: after) = some (before,after) := by
  have hbefore : ∀ c ∈ before, (c != sep) = true := by
    intro c hc
    exact bne_iff_ne.mpr fun heq => h (heq ▸ hc)
  unfold cutAt
  rw [List.dropWhile_append_of_pos hbefore, List.takeWhile_append_of_pos hbefore]
  simp

theorem cutAt_of_notMem {sep : Char} (h : sep ∉ t) : cutAt sep t = none := by
  have hall : t.dropWhile (· != sep) = [] := by
    rw [← List.append_nil t, List.dropWhile_append_of_pos]
    · rfl
    · intro c hc
      exact bne_iff_ne.mpr fun heq => h (heq ▸ hc)
  unfold cutAt
  rw [hall]

theorem piecesFrom_append {sep : Char} (h : sep ∉ t) (passed rest : Text) :
    piecesFrom sep passed (t ++ sep :: rest) = (passed.reverse ++ t) :: piecesFrom sep [] rest := by
  induction t generalizing passed with
  | nil => simp [piecesFrom]
  | cons c t ih =>
    have hc : ¬c = sep := fun hc => h (hc ▸ List.mem_cons_self)
    rw [List.cons_append, piecesFrom, if_neg hc, ih fun ht => h (List.mem_cons_of_mem c ht)]
    simp

theorem piecesFrom_of_notMem {sep : Char} (h : sep ∉ t) (passed : Text) :
    piecesFrom sep passed t = [passed.reverse ++ t] := by
  induction t generalizing passed with
  | nil => simp [piecesFrom]
  | cons c t ih =>
    have hc : ¬c = sep := fun hc => h (hc ▸ List.mem_cons_self)
    rw [piecesFrom, if_neg hc, ih fun ht => h (List.mem_cons_of_mem c ht)]
    simp

/-- Texts without a character, with the character between them, are cut into these texts. -/
theorem pieces_flatMap {sep : Char} {more : List Text} (ht : sep ∉ t) (hmore : ∀ s ∈ more, sep ∉ s) :
    pieces sep (t ++ more.flatMap (sep :: ·)) = t :: more := by
  induction more generalizing t with
  | nil =>
    rw [List.flatMap_nil, List.append_nil]
    exact piecesFrom_of_notMem ht []
  | cons s more ih =>
    obtain ⟨hs,hmore⟩ := List.forall_mem_cons.mp hmore
    rw [List.flatMap_cons, List.cons_append, pieces, piecesFrom_append ht]
    exact congrArg (t :: ·) (ih hs hmore)

/-! ## Cutting at a mark -/

/-- A text starts with a mark as before if what is written behind it starts with no character of
the mark. -/
theorem isPrefixOf_append {mark : Text} (s : Text) (h : ∀ c ∈ t.head?, c ∉ mark) :
    mark.isPrefixOf (s ++ t) = mark.isPrefixOf s := by
  induction mark generalizing s with
  | nil => simp
  | cons c mark ih =>
    cases s with
    | nil =>
      cases t with
      | nil => rfl
      | cons d t =>
        have hne : c ≠ d := fun hcd => h d rfl (hcd ▸ List.mem_cons_self)
        simp [List.isPrefixOf, hne]
    | cons d s =>
      rw [List.cons_append, List.isPrefixOf_cons_cons, List.isPrefixOf_cons_cons,
        ih s fun e he hmem => h e he (List.mem_cons_of_mem c hmem)]

theorem isPrefixOf_mark {x : Char} :
    [a, b].isPrefixOf (x :: t) = true ↔ x = a ∧ t.head? = some b := by
  cases t with
  | nil => simp
  | cons y t => simp [@eq_comm _ x a, @eq_comm _ y b]

theorem cutMarkFrom_eq_none_iff (passed : Text) :
    cutMarkFrom [a, b] passed t = none ↔ FreeOf a b t := by
  induction t generalizing passed with
  | nil => simp [cutMarkFrom]
  | cons x t ih =>
    rw [cutMarkFrom, freeOf_cons, ← isPrefixOf_mark]
    by_cases hx : [a, b].isPrefixOf (x :: t) = true
    · simp [hx]
    · rw [if_neg hx, ih]
      simp [hx]

theorem cutMark_eq_none_iff : cutMark [a, b] t = none ↔ FreeOf a b t := cutMarkFrom_eq_none_iff []

theorem hasMark_eq_false_iff : hasMark [a, b] t = false ↔ FreeOf a b t := by
  rw [← cutMark_eq_none_iff, hasMark, Option.isSome_eq_false_iff, Option.isNone_iff_eq_none]

theorem cutMarkFrom_append (hab : a ≠ b) (passed before after : Text) (h : FreeOf a b before) :
    cutMarkFrom [a, b] passed (before ++ a :: b :: after) =
      some (passed.reverse ++ before, after) := by
  induction before generalizing passed with
  | nil => simp [cutMarkFrom]
  | cons x before ih =>
    obtain ⟨hx,hbefore⟩ := freeOf_cons.mp h
    have hseam : ¬(x = a ∧ (before ++ a :: b :: after).head? = some b) := by
      cases before with
      | nil => simpa using fun _ => hab
      | cons y before => exact hx
    rw [List.cons_append, cutMarkFrom, if_neg (mt isPrefixOf_mark.mp hseam),
      ih (x :: passed) hbefore]
    simp

/-- A text is cut at the first mark in it. -/
theorem cutMark_append (hab : a ≠ b) (before after : Text) (h : FreeOf a b before) :
    cutMark [a, b] (before ++ [a, b] ++ after) = some (before, after) := by
  rw [List.append_assoc]
  exact cutMarkFrom_append hab [] before after h

theorem cutMarkFrom_eq_some {passed before after : Text}
    (h : cutMarkFrom [a, b] passed t = some (before,after)) :
    ∃ front, before = passed.reverse ++ front ∧ t = front ++ [a, b] ++ after ∧
      FreeOf a b front := by
  induction t generalizing passed with
  | nil => cases h
  | cons x t ih =>
    rw [cutMarkFrom] at h
    split at h
    · next hmark =>
      obtain ⟨rfl,rfl⟩ := Prod.mk.inj (Option.some.inj h)
      refine ⟨[],(List.append_nil _).symm,?_,freeOf_nil⟩
      exact (List.prefix_iff_eq_append.mp (List.isPrefixOf_iff_prefix.mp hmark)).symm
    · next hmark =>
      obtain ⟨front,rfl,rfl,hfree⟩ := ih h
      refine ⟨x :: front,by simp,rfl,freeOf_cons.mpr ⟨?_,hfree⟩⟩
      rintro ⟨rfl,hhead⟩
      apply hmark
      rw [isPrefixOf_mark]
      cases front with
      | nil => cases hhead
      | cons y front => exact ⟨rfl,hhead⟩

/-- The first mark is the one with none before it. -/
theorem cutMark_eq_some_iff (hab : a ≠ b) {before after : Text} :
    cutMark [a, b] t = some (before,after) ↔ t = before ++ [a, b] ++ after ∧ FreeOf a b before := by
  constructor
  · intro h
    obtain ⟨front,rfl,ht,hfree⟩ := cutMarkFrom_eq_some h
    exact ⟨ht,hfree⟩
  · rintro ⟨rfl,hfree⟩
    exact cutMark_append hab before after hfree

theorem cutLastMarkFrom_of_freeOf (passed : Text) (best : Option (Text × Text)) (h : FreeOf a b t) :
    cutLastMarkFrom [a, b] passed best t = best := by
  induction t generalizing passed with
  | nil => rfl
  | cons x t ih =>
    obtain ⟨hx,ht⟩ := freeOf_cons.mp h
    rw [cutLastMarkFrom, if_neg (mt isPrefixOf_mark.mp hx)]
    exact ih (x :: passed) ht

theorem cutLastMarkFrom_append (hab : a ≠ b) (passed before after : Text)
    (best : Option (Text × Text)) (h : FreeOf a b after) :
    cutLastMarkFrom [a, b] passed best (before ++ a :: b :: after) =
      some (before.reverse ++ passed, a :: b :: after) := by
  induction before generalizing passed best with
  | nil =>
    have hafter : FreeOf a b (b :: after) := freeOf_cons.mpr ⟨fun hb => hab hb.1.symm,h⟩
    rw [List.nil_append, cutLastMarkFrom, if_pos (isPrefixOf_mark.mpr ⟨rfl,rfl⟩)]
    exact cutLastMarkFrom_of_freeOf _ _ hafter
  | cons x before ih =>
    rw [List.cons_append, cutLastMarkFrom, ih]
    simp

/-- A text is cut at the last mark in it. -/
theorem cutLastMark_of_freeOf (hab : a ≠ b) (before after : Text) (h : FreeOf a b after) :
    cutLastMark [a, b] (before ++ [a, b] ++ after) = some (before, after) := by
  rw [List.append_assoc]
  have hcut := cutLastMarkFrom_append hab [] before after none h
  simp only [List.cons_append, List.nil_append] at hcut ⊢
  simp [cutLastMark, hcut]

/-- A text is cut at its last mark if the second character of the mark is missing behind it. -/
theorem cutLastMark_append (hab : a ≠ b) (before after : Text) (h : b ∉ after) :
    cutLastMark [a, b] (before ++ [a, b] ++ after) = some (before, after) :=
  cutLastMark_of_freeOf hab before after (freeOf_of_second_notMem h)

theorem cutLastMarkFrom_eq_some {passed : Text} {best : Option (Text × Text)} {x y : Text}
    (h : cutLastMarkFrom [a, b] passed best t = some (x,y)) :
    (best = some (x,y) ∧ FreeOf a b t) ∨
      ∃ front after, x = front.reverse ++ passed ∧ t = front ++ y ∧ y = a :: b :: after ∧
        FreeOf a b after := by
  induction t generalizing passed best with
  | nil => exact .inl ⟨h,freeOf_nil⟩
  | cons c t ih =>
    rw [cutLastMarkFrom] at h
    rcases ih h with ⟨hbest,hfree⟩ | ⟨front,after,rfl,rfl,rfl,hfree⟩
    · split at hbest
      · next hmark =>
        obtain ⟨rfl,hhead⟩ := isPrefixOf_mark.mp hmark
        obtain ⟨after,rfl⟩ := List.head?_eq_some_iff.mp hhead
        obtain ⟨rfl,rfl⟩ := Prod.mk.inj (Option.some.inj hbest)
        exact .inr ⟨[],after,rfl,rfl,rfl,(freeOf_cons.mp hfree).2⟩
      · next hmark => exact .inl ⟨hbest,freeOf_cons.mpr ⟨mt isPrefixOf_mark.mpr hmark,hfree⟩⟩
    · exact .inr ⟨c :: front,after,by simp,rfl,rfl,hfree⟩

/-- The last mark is the one with none behind it. -/
theorem cutLastMark_eq_some_iff (hab : a ≠ b) {before after : Text} :
    cutLastMark [a, b] t = some (before,after) ↔
      t = before ++ [a, b] ++ after ∧ FreeOf a b after := by
  constructor
  · intro h
    obtain ⟨⟨x,y⟩,hcut,hpair⟩ := Option.map_eq_some_iff.mp h
    obtain ⟨rfl,rfl⟩ := Prod.mk.inj hpair
    rcases cutLastMarkFrom_eq_some hcut with ⟨hnone,-⟩ | ⟨front,after,rfl,rfl,rfl,hfree⟩
    · cases hnone
    · exact ⟨by simp,hfree⟩
  · rintro ⟨rfl,hfree⟩
    exact cutLastMark_of_freeOf hab before after hfree

theorem cutLastMarkFrom_eq_none_iff (passed : Text) (best : Option (Text × Text)) :
    cutLastMarkFrom [a, b] passed best t = none ↔ best = none ∧ FreeOf a b t := by
  induction t generalizing passed best with
  | nil => simp [cutLastMarkFrom]
  | cons x t ih =>
    rw [cutLastMarkFrom, ih, freeOf_cons, ← isPrefixOf_mark]
    by_cases hx : [a, b].isPrefixOf (x :: t) = true
    · simp [hx]
    · simp [hx]

theorem cutLastMark_eq_none_iff : cutLastMark [a, b] t = none ↔ FreeOf a b t := by
  rw [cutLastMark, Option.map_eq_none_iff, cutLastMarkFrom_eq_none_iff]
  simp

theorem replacePairFrom_of_freeOf (new passed : Text) (h : FreeOf a b t) :
    replacePairFrom a b new passed t = passed.reverse ++ t := by
  induction t generalizing passed with
  | nil => simp [replacePairFrom]
  | cons x t ih =>
    obtain ⟨hx,ht⟩ := freeOf_cons.mp h
    cases t with
    | nil => simp [replacePairFrom]
    | cons y t =>
      have hxy : ¬(x = a ∧ y = b) := by simpa using hx
      rw [replacePairFrom, if_neg hxy, ih (x :: passed) ht]
      simp

theorem replacePair_of_freeOf (new : Text) (h : FreeOf a b t) : replacePair a b new t = t :=
  replacePairFrom_of_freeOf new [] h

/-! ## Sizes -/

theorem foldl_utf8Size (n : Nat) (t : Text) :
    t.foldl (fun n c => n + c.utf8Size) n = n + byteLength t := by
  unfold byteLength
  induction t generalizing n with
  | nil => rfl
  | cons c t ih =>
    rw [List.foldl_cons, List.foldl_cons, ih, ih (0 + c.utf8Size)]
    omega

@[simp] theorem byteLength_nil : byteLength [] = 0 := rfl

@[simp] theorem byteLength_cons (c : Char) (t : Text) :
    byteLength (c :: t) = c.utf8Size + byteLength t := by
  rw [byteLength, List.foldl_cons, foldl_utf8Size]
  omega

@[simp] theorem byteLength_append (s t : Text) :
    byteLength (s ++ t) = byteLength s + byteLength t := by
  rw [byteLength, List.foldl_append, foldl_utf8Size]
  rfl

end AbcTune.Text
