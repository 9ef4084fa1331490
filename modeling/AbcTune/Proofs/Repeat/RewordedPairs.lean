import AbcTune.Proofs.Repeat.Doubles
import AbcTune.Proofs.Repeat.Rewording

/-! # Pairs in alike texts

Bar lines are written for the opening marks that are left over, and double marks are taken apart.
Both go through a text pair by pair, and alike texts hold the same pairs.
-/
namespace AbcTune.Repeat

open Text

namespace Rewording

variable {x : Rewording} {p q r : Place} {s s' t t' : Text} {a b c : Char}

theorem freeOf_lineEnd_nil (ha : Solid a) : FreeOf a b x.lineEnd := by
  have h := (x.freeOf_lineEnd (b := b) (t := []) ha).mpr freeOf_nil
  rwa [List.append_nil] at h

theorem getLast?_lineEnd (ha : Solid a) : x.lineEnd.getLast? ≠ some a := by
  rcases x.lineEnd_eq with h | h
  · rw [h]
    exact fun h => ha.1 (Option.some.inj h).symm
  · rw [h]
    exact fun h => ha.1 (Option.some.inj h).symm

/-! ## Pairs of characters -/

/-- Alike texts go on with the same pair, with a character that is not the first of one, with the
end of a line or with a comment. -/
theorem Alike.pairInduction (hmark : [a, b] ∈ marks) {motive : Place → Text → Text → Prop}
    (nil : ∀ {p}, p.Opens q → motive p [] [])
    (pair : ∀ {p t t'}, p ≠ .behindRemark → motive .inLine t t' →
      motive p (a :: b :: t) (a :: b :: t'))
    (char : ∀ {p c t t'}, p ≠ .behindRemark → x.Keeps c → ¬(c = a ∧ t.head? = some b) →
      ¬(c = a ∧ t'.head? = some b) → motive .inLine t t' → motive p (c :: t) (c :: t'))
    (lineEnd : ∀ {p t t'}, motive .lineStart t t' → motive p ('\n' :: t) (x.lineEnd ++ t'))
    (remark : ∀ {d e t t'}, x.remark d e → t.head? ≠ some b → t'.head? ≠ some b →
      motive .behindRemark t t' → motive .lineStart ('%' :: d ++ t) ('%' :: e ++ t'))
    (h : x.Alike p q s s') : motive p s s' := by
  have hb := (solid_pair hmark).2
  induction hn : s.length using Nat.strongRecOn generalizing p s s' with
  | ind n ih =>
    subst hn
    cases h with
    | nil hopens => exact nil hopens
    | @char _ _ c t t' hp hc h =>
      by_cases hpair : c = a ∧ t.head? = some b
      · obtain ⟨rfl,hhead⟩ := hpair
        obtain ⟨u,rfl⟩ := List.head?_eq_some_iff.mp hhead
        obtain ⟨u',rfl,hnext⟩ := h.of_cons hb
        exact pair hp (ih u.length (by simp only [List.length_cons]; omega) hnext rfl)
      · have hpair' : ¬(c = a ∧ t'.head? = some b) := by rwa [← h.head?_iff hb]
        exact char hp hc hpair hpair' (ih t.length (by simp) h rfl)
    | @lineEnd _ _ t t' h => exact lineEnd (ih t.length (by simp) h rfl)
    | @remark _ d e t t' hab h =>
      have hhead := h.head?_behindRemark hb
      exact remark hab hhead (mt (h.head?_iff hb).mpr hhead)
        (ih t.length (by simp only [List.length_append, List.length_cons]; omega) h rfl)

theorem Alike.replacePair (hmark : [a, b] ∈ marks) {new : Text} (hnew : ∀ c ∈ new, Solid c)
    (h : x.Alike p q s s') :
    x.Alike p q (Text.replacePair a b new s) (Text.replacePair a b new s') := by
  have ha := (solid_pair hmark).1
  refine pairInduction (motive := fun p s s' =>
    x.Alike p q (Text.replacePair a b new s) (Text.replacePair a b new s')) hmark
    ?nil ?pair ?char ?lineEnd ?remark h
  case nil => exact fun hopens => .nil hopens
  case pair =>
    intro p t t' hp ih
    rw [replacePair_pair, replacePair_pair]
    exact (Alike.solid hp hnew).append ih
  case char =>
    intro p c t t' hp hc hpair hpair' ih
    rw [replacePair_cons _ hpair, replacePair_cons _ hpair']
    exact .char hp hc ih
  case lineEnd =>
    intro p t t' ih
    rw [replacePair_cons _ fun h => ha.1 h.1.symm,
      replacePair_append _ (freeOf_lineEnd_nil ha) fun h => getLast?_lineEnd ha h.1]
    exact .lineEnd ih
  case remark =>
    intro d e t t' hde hhead hhead' ih
    rw [replacePair_append _ ((x.quiet hde).1.freeOf hmark) fun h => hhead h.2,
      replacePair_append _ ((x.quiet hde).2.freeOf hmark) fun h => hhead' h.2]
    exact .remark hde ih

/-! ## Double marks -/

/-- What a tuplet at the end of a text, given in reverse, is told by. -/
def countAtEnd (reversed : Text) : Text × Option Char :=
  (reversed.takeWhile Char.isDigit,(reversed.dropWhile Char.isDigit).head?)

theorem endsInTupletCount_congr {u u' : Text} (h : countAtEnd u = countAtEnd u') :
    endsInTupletCount u = endsInTupletCount u' := by
  have hcount (u : Text) : endsInTupletCount u =
      (!(countAtEnd u).1.isEmpty && (countAtEnd u).2 == some '(') := by
    cases u with
    | nil => rfl
    | cons c u =>
      unfold endsInTupletCount countAtEnd
      by_cases hc : c.isDigit = true
      · simp [hc]
      · simp [hc]
  rw [hcount, hcount, h]

theorem countAtEnd_cons {u u' : Text} (h : countAtEnd u = countAtEnd u') (c : Char) :
    countAtEnd (c :: u) = countAtEnd (c :: u') := by
  obtain ⟨htake,hdrop⟩ := Prod.mk.inj h
  unfold countAtEnd
  by_cases hc : c.isDigit = true
  · rw [List.takeWhile_cons_of_pos hc, List.takeWhile_cons_of_pos hc,
      List.dropWhile_cons_of_pos hc, List.dropWhile_cons_of_pos hc, htake, hdrop]
  · rw [List.takeWhile_cons_of_neg hc, List.takeWhile_cons_of_neg hc,
      List.dropWhile_cons_of_neg hc, List.dropWhile_cons_of_neg hc]
    rfl

/-- Behind what has been passed, double marks are taken apart alike. -/
def SplitsAlike (x : Rewording) (p q : Place) (passed passed' s s' : Text) : Prop :=
  ∃ u u', Repeat.splitDoublesFrom passed s = passed.reverse ++ u ∧
    Repeat.splitDoublesFrom passed' s' = passed'.reverse ++ u' ∧ x.Alike p q u u'

/-- What each text has in front, with its double mark taken apart, counts as passed. -/
theorem SplitsAlike.ahead {passed passed' v w : Text}
    (h : x.SplitsAlike r q (v.reverse ++ passed) (w.reverse ++ passed') t t')
    (hs : Repeat.splitDoublesFrom passed s = Repeat.splitDoublesFrom (v.reverse ++ passed) t)
    (hs' : Repeat.splitDoublesFrom passed' s' =
      Repeat.splitDoublesFrom (w.reverse ++ passed') t')
    (hahead : ∀ {u u'}, x.Alike r q u u' → x.Alike p q (v ++ u) (w ++ u')) :
    x.SplitsAlike p q passed passed' s s' := by
  obtain ⟨u,u',hu,hu',halike⟩ := h
  refine ⟨v ++ u,w ++ u',?_,?_,hahead halike⟩
  · rw [hs, hu, List.reverse_append, List.reverse_reverse, List.append_assoc]
  · rw [hs', hu', List.reverse_append, List.reverse_reverse, List.append_assoc]

theorem countAtEnd_append {u u' : Text} (h : countAtEnd u = countAtEnd u') (v : Text) :
    countAtEnd (v ++ u) = countAtEnd (v ++ u') := by
  induction v with
  | nil => exact h
  | cons c v ih => exact countAtEnd_cons ih c

theorem countAtEnd_lineEnd (passed passed' : Text) :
    countAtEnd ('\n' :: passed) = countAtEnd (x.lineEnd.reverse ++ passed') := by
  rcases x.lineEnd_eq with h | h
  · rw [h]
    rfl
  · rw [h]
    rfl

/-- What has been passed tells a tuplet alike, except behind a comment, where no pair follows. -/
theorem Alike.splitDoublesFrom (h : x.Alike p q s s') (passed passed' : Text)
    (hcount : p ≠ .behindRemark → countAtEnd passed = countAtEnd passed') :
    x.SplitsAlike p q passed passed' s s' := by
  have hdouble : double ∈ marks := by decide
  have hcolon : Solid ':' := by decide
  revert passed passed' hcount
  refine pairInduction (motive := fun p s s' => ∀ passed passed' : Text,
    (p ≠ .behindRemark → countAtEnd passed = countAtEnd passed') →
      x.SplitsAlike p q passed passed' s s') hdouble ?nil ?pair ?char ?lineEnd ?remark h
  case nil =>
    intro p hopens passed passed' _
    exact ⟨[],[],by simp [Repeat.splitDoublesFrom],by simp [Repeat.splitDoublesFrom],.nil hopens⟩
  case pair =>
    intro p t t' hp ih passed passed' hcount
    have htuplet := endsInTupletCount_congr (hcount hp)
    by_cases hends : endsInTupletCount passed
    · refine SplitsAlike.ahead (v := double) (w := double)
        (ih _ _ fun _ => countAtEnd_append (hcount hp) _) ?_ ?_
        (Alike.solid hp (solid_of_mem_marks _ hdouble)).append
      · rw [splitDoublesFrom_pair, if_pos hends]
        rfl
      · rw [splitDoublesFrom_pair, if_pos (htuplet ▸ hends)]
        rfl
    · refine SplitsAlike.ahead (v := closing ++ opening) (w := closing ++ opening)
        (ih _ _ fun _ => countAtEnd_append (hcount hp) _) ?_ ?_
        (Alike.solid hp (by simp [closing, opening, Solid])).append
      · rw [splitDoublesFrom_pair, if_neg hends]
        rfl
      · rw [splitDoublesFrom_pair, if_neg (htuplet ▸ hends)]
        rfl
  case char =>
    intro p c t t' hp hc hpair hpair' ih passed passed' hcount
    exact SplitsAlike.ahead (v := [c]) (w := [c])
      (ih _ _ fun _ => countAtEnd_cons (hcount hp) c) (splitDoublesFrom_cons _ hpair)
      (splitDoublesFrom_cons _ hpair') (.char hp hc)
  case lineEnd =>
    intro p t t' ih passed passed' _
    exact SplitsAlike.ahead (v := ['\n']) (w := x.lineEnd)
      (ih _ _ fun _ => countAtEnd_lineEnd passed passed')
      (splitDoublesFrom_cons _ fun h => hcolon.1 h.1.symm)
      (splitDoublesFrom_append _ (freeOf_lineEnd_nil hcolon) fun h => getLast?_lineEnd hcolon h.1)
      .lineEnd
  case remark =>
    intro d e t t' hde hhead hhead' ih passed passed' _
    exact SplitsAlike.ahead (v := '%' :: d) (w := '%' :: e) (ih _ _ fun h => absurd rfl h)
      (splitDoublesFrom_append _ ((x.quiet hde).1.freeOf hdouble) fun h => hhead h.2)
      (splitDoublesFrom_append _ ((x.quiet hde).2.freeOf hdouble) fun h => hhead' h.2)
      (.remark hde)

theorem Alike.splitDoubles (h : x.Alike p q s s') :
    x.Alike p q (Repeat.splitDoubles s) (Repeat.splitDoubles s') := by
  obtain ⟨u,u',hu,hu',halike⟩ := h.splitDoublesFrom [] [] fun _ => rfl
  rw [Repeat.splitDoubles, Repeat.splitDoubles, hu, hu']
  exact halike

end Rewording
end AbcTune.Repeat
