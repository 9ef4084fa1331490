import AbcTune.Proofs.Repeat.Nesting
import AbcTune.Proofs.Text.Pair

/-! # Double marks that are taken apart

Whether the next colon completes a double mark that is taken apart is told by little of the text
before it: by a colon at its end, and by the count of a tuplet there, behind which two colons are
left as they are. A text holds no such mark just if it can be read with this little in mind.
-/
namespace AbcTune.Repeat

open Text

variable {c : Char} {passed s t : Text}

theorem splitDoublesFrom_pair (passed t : Text) :
    splitDoublesFrom passed (':' :: ':' :: t) =
      if endsInTupletCount passed then splitDoublesFrom (':' :: ':' :: passed) t
      else splitDoublesFrom (':' :: '|' :: '|' :: ':' :: passed) t := by
  rw [splitDoublesFrom, if_pos (And.intro rfl rfl)]

theorem splitDoublesFrom_cons (passed : Text) (h : ¬(c = ':' ∧ t.head? = some ':')) :
    splitDoublesFrom passed (c :: t) = splitDoublesFrom (c :: passed) t := by
  cases t with
  | nil => rfl
  | cons d t =>
    have hpair : ¬(c = ':' ∧ d = ':') := by simpa using h
    rw [splitDoublesFrom, if_neg hpair]

theorem splitDoublesFrom_append (passed : Text) (hfree : FreeOf ':' ':' s)
    (hseam : ¬(s.getLast? = some ':' ∧ t.head? = some ':')) :
    splitDoublesFrom passed (s ++ t) = splitDoublesFrom (s.reverse ++ passed) t := by
  induction s generalizing passed with
  | nil => rfl
  | cons c s ih =>
    obtain ⟨hc,hfree⟩ := freeOf_cons.mp hfree
    have hpair : ¬(c = ':' ∧ (s ++ t).head? = some ':') := by
      cases s with
      | nil => simpa using hseam
      | cons d s => exact hc
    have hrest : ¬(s.getLast? = some ':' ∧ t.head? = some ':') := by
      cases s with
      | nil => simp
      | cons d s => rwa [List.getLast?_cons_cons] at hseam
    rw [List.cons_append, splitDoublesFrom_cons _ hpair, ih _ hfree hrest]
    simp

theorem prefix_splitDoublesFrom (passed t : Text) :
    passed.reverse <+: splitDoublesFrom passed t := by
  have hpassed (s passed : Text) : passed.reverse <+: (s ++ passed).reverse := by
    rw [List.reverse_append]
    exact List.prefix_append _ _
  induction t using pairInduction (a := ':') (b := ':') generalizing passed with
  | nil => exact List.prefix_rfl
  | pair t ih =>
    rw [splitDoublesFrom_pair]
    split
    · exact (hpassed [':', ':'] passed).trans (ih _)
    · exact (hpassed [':', '|', '|', ':'] passed).trans (ih _)
  | cons c t hpair ih =>
    rw [splitDoublesFrom_cons _ hpair]
    exact (hpassed [c] passed).trans (ih _)

theorem endsInTupletCount_cons (c : Char) (passed : Text) :
    endsInTupletCount (c :: passed) =
      (c.isDigit && (endsInTupletCount passed || passed.head? == some '(')) := by
  cases hc : c.isDigit with
  | false => simp [endsInTupletCount, hc]
  | true =>
    cases passed with
    | nil => simp [endsInTupletCount, hc]
    | cons d passed =>
      cases hd : d.isDigit with
      | false => simp [endsInTupletCount, hc, hd]
      | true =>
        have hparen : d ≠ '(' := by
          rintro rfl
          cases hd
        simp [endsInTupletCount, hc, hd, hparen]

/-- What a text leaves off with, as far as double marks are concerned. -/
inductive Tail where
  | plain
  /-- An opening parenthesis. -/
  | opened
  /-- An opening parenthesis and digits. -/
  | counted
  /-- The first of two colons that are left behind the count of a tuplet. -/
  | countColon
  /-- A colon behind which another one makes a double mark that is taken apart. -/
  | colon
  deriving DecidableEq

namespace Tail

variable {q q' r r' : Tail}

/-- The tail with one more colon behind it, which must not complete a double mark. -/
def behindColon : Tail → Option Tail
  | .plain | .opened => some .colon
  | .counted => some .countColon
  | .countColon => some .plain
  | .colon => none

/-- The tail with a character other than a colon behind it. -/
def behindOther (q : Tail) (c : Char) : Tail :=
  if c = '(' then .opened
  else if c.isDigit ∧ (q = .opened ∨ q = .counted) then .counted
  else .plain

def next (q : Tail) (c : Char) : Option Tail :=
  if c = ':' then q.behindColon else some (q.behindOther c)

/-- The tail with a text behind it. -/
def after (q : Tail) (t : Text) : Option Tail := t.foldlM next q

@[simp] theorem after_nil (q : Tail) : q.after [] = some q := rfl

theorem after_cons (q : Tail) (c : Char) (t : Text) :
    q.after (c :: t) = (q.next c).bind (·.after t) := rfl

theorem after_append (q : Tail) (s t : Text) : q.after (s ++ t) = (q.after s).bind (·.after t) :=
  List.foldlM_append

theorem after_cons_of {p : Tail} (hnext : q.next c = some p) (h : p.after t = some r) :
    q.after (c :: t) = some r := by rw [after_cons, hnext, Option.bind_some, h]

theorem after_append_of {p : Tail} (hs : q.after s = some p) (h : p.after t = some r) :
    q.after (s ++ t) = some r := by rw [after_append, hs, Option.bind_some, h]

theorem exists_of_after_append (h : q.after (s ++ t) = some r) :
    ∃ p, q.after s = some p ∧ p.after t = some r := by
  rw [after_append] at h
  exact Option.bind_eq_some_iff.mp h

theorem next_colon (q : Tail) : q.next ':' = q.behindColon := rfl

theorem next_of_ne (q : Tail) (h : c ≠ ':') : q.next c = some (q.behindOther c) := if_neg h

theorem behindColon_eq_none_iff : q.behindColon = none ↔ q = .colon := by cases q <;> decide

theorem behindColon_spec (h : q.behindColon = some r) : r ≠ .opened ∧ r ≠ .counted := by
  cases q <;> cases h <;> decide

theorem behindOther_spec (q : Tail) (c : Char) :
    q.behindOther c ≠ .colon ∧ q.behindOther c ≠ .countColon := by
  unfold behindOther
  split
  · decide
  · split <;> decide

/-- Behind a character that is part of no double mark and of no tuplet, nothing matters any more. -/
theorem next_of_plain (q : Tail) (hcolon : c ≠ ':') (hparen : c ≠ '(')
    (hdigit : c.isDigit = false) : q.next c = some .plain := by
  rw [next_of_ne q hcolon, behindOther, if_neg hparen, if_neg fun h => by simp [hdigit] at h]

theorem next_eq_none_iff : q.next c = none ↔ c = ':' ∧ q = .colon := by
  by_cases hc : c = ':'
  · rw [hc, next_colon, behindColon_eq_none_iff]
    simp
  · simp [next_of_ne q hc, hc]

theorem colon_of_next (h : q.next c = some r) (hr : r = .colon ∨ r = .countColon) : c = ':' := by
  by_contra hc
  rw [next_of_ne q hc] at h
  obtain ⟨hcolon,hcountColon⟩ := Option.some.inj h ▸ q.behindOther_spec c
  exact hr.elim hcolon hcountColon

/-- A text that leaves off with the first colon of a double mark ends in it. -/
theorem getLast?_of_after (h : q.after t = some .colon) :
    (t = [] ∧ q = .colon) ∨ t.getLast? = some ':' := by
  rcases t.eq_nil_or_concat with rfl | ⟨s,c,rfl⟩
  · exact .inl ⟨rfl,Option.some.inj h⟩
  · rw [List.concat_eq_append] at h ⊢
    obtain ⟨p,-,hp⟩ := exists_of_after_append h
    obtain ⟨p',hnext,hp'⟩ := Option.bind_eq_some_iff.mp hp
    obtain rfl : p' = .colon := Option.some.inj hp'
    exact .inr (colon_of_next hnext (.inl rfl) ▸ List.getLast?_concat)

/-! ## Tails that allow more than others -/

/-- Behind `r` may stand whatever may stand behind `q`. -/
def Below (q r : Tail) : Prop := q = r ∨ q = .colon ∨ q = .plain ∧ r ≠ .colon

theorem Below.refl (q : Tail) : q.Below q := .inl rfl

theorem Below.ne_colon (h : q.Below r) (hq : q ≠ .colon) : r ≠ .colon := by
  rcases h with rfl | rfl | ⟨-,hr⟩
  · exact hq
  · exact absurd rfl hq
  · exact hr

theorem Below.behindOther (h : q.Below r) (c : Char) :
    (q.behindOther c).Below (r.behindOther c) := by
  rcases h with rfl | h
  · exact .refl _
  · have hq : ¬(q = .opened ∨ q = .counted) := by
      rcases h with rfl | ⟨rfl,-⟩ <;> decide
    by_cases hparen : c = '('
    · simp [Tail.behindOther, hparen, Below]
    · refine .inr (.inr ⟨?_,(r.behindOther_spec c).1⟩)
      rw [Tail.behindOther, if_neg hparen, if_neg fun hdigit => hq hdigit.2]

theorem Below.next (h : q.Below r) (hnext : q.next c = some q') :
    ∃ r', r.next c = some r' ∧ q'.Below r' := by
  by_cases hc : c = ':'
  · subst hc
    rcases h with rfl | rfl | ⟨rfl,hr⟩
    · exact ⟨q',hnext,.refl q'⟩
    · cases hnext
    · obtain ⟨r',hr'⟩ := Option.ne_none_iff_exists'.mp (mt behindColon_eq_none_iff.mp hr)
      obtain rfl : .colon = q' := Option.some.inj hnext
      exact ⟨r',hr',.inr (.inl rfl)⟩
  · rw [next_of_ne q hc] at hnext
    exact ⟨_,next_of_ne r hc,Option.some.inj hnext ▸ h.behindOther c⟩

theorem Below.after (h : q.Below r) (hafter : q.after t = some q') :
    ∃ r', r.after t = some r' ∧ q'.Below r' := by
  induction t generalizing q r with
  | nil =>
    cases hafter
    exact ⟨r,rfl,h⟩
  | cons c t ih =>
    obtain ⟨p,hnext,hp⟩ := Option.bind_eq_some_iff.mp hafter
    obtain ⟨p',hnext',hbelow⟩ := h.next hnext
    obtain ⟨r',hr',hbelow'⟩ := ih hbelow hp
    exact ⟨r',after_cons_of hnext' hr',hbelow'⟩

/-! ## Reading and taking apart -/

/-- A tail is the one of a text, given in reverse, as far as tuplets are concerned. -/
structure Fits (q : Tail) (passed : Text) : Prop where
  counted : endsInTupletCount passed = true ↔ q = .counted
  opened : passed.head? = some '(' ↔ q = .opened

theorem fits_nil : Tail.plain.Fits [] := ⟨by decide,by decide⟩

theorem Fits.next (h : q.Fits passed) (hnext : q.next c = some r) : r.Fits (c :: passed) := by
  have hcount : endsInTupletCount (c :: passed) = true ↔
      c.isDigit = true ∧ (q = .opened ∨ q = .counted) := by
    rw [endsInTupletCount_cons, ← h.counted, ← h.opened]
    simp [or_comm]
  by_cases hc : c = ':'
  · subst hc
    obtain ⟨hopened,hcounted⟩ := behindColon_spec hnext
    exact ⟨hcount.trans (iff_of_false (fun hdigit => by cases hdigit.1) hcounted),
      iff_of_false (by simp) hopened⟩
  · rw [next_of_ne q hc] at hnext
    obtain rfl := Option.some.inj hnext
    unfold behindOther
    split
    · next hparen =>
      subst hparen
      exact ⟨hcount.trans (iff_of_false (fun hdigit => by cases hdigit.1) (by decide)),
        iff_of_true rfl rfl⟩
    · next hparen =>
      have hhead : (c :: passed).head? ≠ some '(' := fun hhead => hparen (Option.some.inj hhead)
      split
      · next hdigit => exact ⟨hcount.trans (iff_of_true hdigit rfl),iff_of_false hhead (by decide)⟩
      · next hdigit =>
        exact ⟨hcount.trans (iff_of_false hdigit (by decide)),iff_of_false hhead (by decide)⟩

theorem splitDoublesFrom_eq_iff (hfits : q.Fits passed)
    (hseam : t.head? = some ':' → q ≠ .colon ∧ q ≠ .countColon) :
    splitDoublesFrom passed t = passed.reverse ++ t ↔ ∃ r, q.after t = some r := by
  induction t using pairInduction (a := ':') (b := ':') generalizing q passed with
  | nil => exact iff_of_true (by simp [splitDoublesFrom]) ⟨q,rfl⟩
  | pair t ih =>
    obtain ⟨hcolon,hcountColon⟩ := hseam rfl
    rw [splitDoublesFrom_pair]
    by_cases hcounted : q = .counted
    · subst hcounted
      have hfits' : Tail.plain.Fits (':' :: ':' :: passed) :=
        (hfits.next (r := .countColon) rfl).next rfl
      have hsplit := ih hfits' (by simp)
      rw [if_pos (hfits.counted.mpr rfl)]
      simpa [after_cons, next_colon, behindColon] using hsplit
    · rw [if_neg (mt hfits.counted.mp hcounted)]
      refine iff_of_false ?_ ?_
      · intro heq
        obtain ⟨w,hw⟩ := prefix_splitDoublesFrom (':' :: '|' :: '|' :: ':' :: passed) t
        rw [heq] at hw
        simp at hw
      · rintro ⟨r,hr⟩
        cases q <;> simp_all [after_cons, next_colon, behindColon]
  | cons c t hpair ih =>
    rw [splitDoublesFrom_cons _ hpair, after_cons]
    cases hnext : q.next c with
    | none =>
      obtain ⟨rfl,rfl⟩ := next_eq_none_iff.mp hnext
      exact absurd rfl (hseam rfl).1
    | some r =>
      have hseam' : t.head? = some ':' → r ≠ .colon ∧ r ≠ .countColon := by
        intro hhead
        rw [← not_or]
        exact fun hr => hpair ⟨colon_of_next hnext hr,hhead⟩
      have hsplit := ih (hfits.next hnext) hseam'
      simpa using hsplit

end Tail

/-- A text that is read to its end is one in which no double mark is taken apart. -/
theorem splitDoubles_eq_self_iff : splitDoubles t = t ↔ ∃ r, Tail.plain.after t = some r :=
  Tail.splitDoublesFrom_eq_iff Tail.fits_nil fun _ => by decide

end AbcTune.Repeat
