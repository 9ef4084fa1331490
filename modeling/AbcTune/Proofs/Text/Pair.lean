import AbcTune.Proofs.Text.Mark

/-! # Pairs that are replaced

Replacing goes through a text from left to right: a pair is replaced as a whole, and any other
character is kept. A character that belongs to no pair makes no new one, so one pass leaves none.
-/
namespace AbcTune.Text

variable {a b : Char} {t : Text}

theorem replacePairFrom_append (new passed before t : Text) :
    replacePairFrom a b new (passed ++ before) t =
      before.reverse ++ replacePairFrom a b new passed t := by
  fun_induction replacePairFrom a b new passed t with
  | case1 passed => simp [replacePairFrom]
  | case2 passed x => simp [replacePairFrom]
  | case3 passed x y rest hpair ih => rw [replacePairFrom, if_pos hpair, ← List.append_assoc, ih]
  | case4 passed x y rest hpair ih => rw [replacePairFrom, if_neg hpair, ← List.cons_append, ih]

theorem replacePairFrom_eq (new passed t : Text) :
    replacePairFrom a b new passed t = passed.reverse ++ replacePair a b new t :=
  replacePairFrom_append new [] passed t

theorem replacePair_pair (new t : Text) :
    replacePair a b new (a :: b :: t) = new ++ replacePair a b new t := by
  rw [replacePair, replacePairFrom, if_pos ⟨rfl,rfl⟩, replacePairFrom_eq]
  simp

theorem replacePair_cons {x : Char} (new : Text) (h : ¬(x = a ∧ t.head? = some b)) :
    replacePair a b new (x :: t) = x :: replacePair a b new t := by
  cases t with
  | nil => rfl
  | cons y t =>
    have hpair : ¬(x = a ∧ y = b) := by simpa using h
    rw [replacePair, replacePairFrom, if_neg hpair, replacePairFrom_eq]
    rfl

theorem replacePair_append {s : Text} (new : Text) (hfree : FreeOf a b s)
    (hseam : ¬(s.getLast? = some a ∧ t.head? = some b)) :
    replacePair a b new (s ++ t) = s ++ replacePair a b new t := by
  induction s with
  | nil => rfl
  | cons x s ih =>
    obtain ⟨hx,hfree⟩ := freeOf_cons.mp hfree
    have hpair : ¬(x = a ∧ (s ++ t).head? = some b) := by
      cases s with
      | nil => simpa using hseam
      | cons y s => exact hx
    have hrest : ¬(s.getLast? = some a ∧ t.head? = some b) := by
      cases s with
      | nil => simp
      | cons y s => rwa [List.getLast?_cons_cons] at hseam
    rw [List.cons_append, replacePair_cons _ hpair, ih hfree hrest]
    rfl

/-- A text is empty, or it starts with the pair or with a character that starts no pair there. -/
theorem pairInduction {motive : Text → Prop} (nil : motive [])
    (pair : ∀ t, motive t → motive (a :: b :: t))
    (cons : ∀ x t, ¬(x = a ∧ t.head? = some b) → motive t → motive (x :: t)) (t : Text) :
    motive t := by
  induction h : t.length using Nat.strongRecOn generalizing t with
  | ind n ih =>
    subst h
    match t with
    | [] => exact nil
    | x :: t =>
      by_cases hpair : x = a ∧ t.head? = some b
      · obtain ⟨rfl,hhead⟩ := hpair
        obtain ⟨rest,rfl⟩ := List.head?_eq_some_iff.mp hhead
        exact pair rest (ih rest.length (Nat.lt_succ_of_lt (Nat.lt_succ_self _)) rest rfl)
      · exact cons x t hpair (ih t.length (by simp) t rfl)

theorem head?_replacePair {c : Char} (hc : c ≠ b) (h : (replacePair a b [c] t).head? = some b) :
    t.head? = some b := by
  induction t using pairInduction (a := a) (b := b) with
  | nil => cases h
  | pair t _ =>
    rw [replacePair_pair] at h
    exact absurd (Option.some.inj h) hc
  | cons x t hpair _ =>
    rw [replacePair_cons _ hpair] at h
    exact h

/-- A pair of which the first character is kept leaves what stands before it as it was. -/
theorem head?_replacePair_first : (replacePair a b [a] t).head? = t.head? := by
  induction t using pairInduction (a := a) (b := b) with
  | nil => rfl
  | pair t _ => rw [replacePair_pair, List.singleton_append, List.head?_cons, List.head?_cons]
  | cons x t hpair _ => rw [replacePair_cons _ hpair, List.head?_cons, List.head?_cons]

/-- Replaced by a character of its own, no pair is left. -/
theorem freeOf_replacePair {c : Char} (ha : c ≠ a) (hb : c ≠ b) (t : Text) :
    FreeOf a b (replacePair a b [c] t) := by
  induction t using pairInduction (a := a) (b := b) with
  | nil => exact freeOf_nil
  | pair t ih =>
    rw [replacePair_pair]
    exact freeOf_cons.mpr ⟨fun hc => ha hc.1,ih⟩
  | cons x t hpair ih =>
    rw [replacePair_cons _ hpair]
    exact freeOf_cons.mpr ⟨fun hx => hpair ⟨hx.1,head?_replacePair hb hx.2⟩,ih⟩

theorem replacePair_eq_self_iff {c : Char} (ha : c ≠ a) (hb : c ≠ b) :
    replacePair a b [c] t = t ↔ FreeOf a b t :=
  ⟨fun h => h ▸ freeOf_replacePair ha hb t,replacePair_of_freeOf [c]⟩

end AbcTune.Text
