import AbcTune.Proofs.Number.Reading
import AbcTune.Proofs.Text.Run
import AbcTune.Proofs.Token.Plain
import AbcTune.Tuplet

/-! # Tuplets as they are written

A written tuplet is the digits of a number, and up to two colons each with any digits behind it.
The token of a tuplet is such a text, and it is read as these numbers; where one of them is left
out, another stands for it.
-/
namespace AbcTune

variable {t : Text}

/-- A tuplet as it is written: the digits of its notes, and what stands behind each colon. -/
structure TupletText where
  notes : Text
  more : List Text
  notes_ne_nil : notes ≠ []
  length_more : more.length ≤ 2
  isDigit_notes : ∀ c ∈ notes, c.isDigit = true
  isDigit_more : ∀ digits ∈ more, ∀ c ∈ digits, c.isDigit = true

/-- Colons, each with the digits behind it. -/
def colonText (more : List Text) : Text := more.flatMap (':' :: ·)

namespace TupletText

def text (g : TupletText) : Text := '(' :: (g.notes ++ colonText g.more)

/-- The number behind the first or the second colon, or another where it is left out. -/
def behind (g : TupletText) (colon absent : Nat) : Nat :=
  writtenNumber absent (g.more.getD colon [])

/-- A tuplet of some notes, none of whose numbers is too large. -/
def Fits (g : TupletText) : Prop :=
  Number.ofDigits g.notes ≠ 0 ∧
    ∀ digits ∈ g.notes :: g.more, Number.ofDigits digits ≤ Number.mostWord

instance (g : TupletText) : Decidable g.Fits := inferInstanceAs (Decidable (_ ∧ _))

/-- What is written: the time comes from the meter where it is left out or zero, and the count is
the number of notes where it is left out. -/
def tuplet (g : TupletText) (meter : Meter) : Tuplet where
  notes := Number.ofDigits g.notes
  inTimeOf :=
    if g.behind 0 0 = 0 then Tuplet.defaultInTimeOf (Number.ofDigits g.notes) meter
    else g.behind 0 0
  remaining := g.behind 1 (Number.ofDigits g.notes)

end TupletText

/-! ## Reading -/

theorem colon_notMem {digits : Text} (h : ∀ c ∈ digits, c.isDigit = true) : ':' ∉ digits :=
  fun hmem => absurd (h ':' hmem) (by decide)

theorem readOptional?_eq (absent : Nat) (more : List Text) (i : Nat)
    (hmore : ∀ digits ∈ more, ∀ c ∈ digits, c.isDigit = true) :
    Tuplet.readOptional? absent more[i]? =
      if Number.ofDigits (more.getD i []) ≤ Number.mostWord then
        some (writtenNumber absent (more.getD i []))
      else none := by
  rw [List.getD_eq_getElem?_getD]
  cases hdigits : more[i]? with
  | none => rfl
  | some digits =>
    cases digits with
    | nil => rfl
    | cons c digits =>
      exact Number.readNat?_of_isDigit (hmore _ (List.mem_of_getElem? hdigits)) nofun _

namespace TupletText

variable (g : TupletText)

theorem pieces_text : Text.pieces ':' (g.text.dropWhile (· = '(')) = g.notes :: g.more := by
  have hdrop : g.text.dropWhile (· = '(') = g.notes ++ colonText g.more := by
    obtain ⟨c,digits,hnotes⟩ := List.exists_cons_of_ne_nil g.notes_ne_nil
    have hc : c ≠ '(' := by
      rintro rfl
      exact absurd (g.isDigit_notes '(' (hnotes ▸ List.mem_cons_self)) (by decide)
    rw [text, hnotes]
    simp [hc]
  rw [hdrop]
  exact Text.pieces_flatMap (colon_notMem g.isDigit_notes) fun digits hdigits =>
    colon_notMem (g.isDigit_more digits hdigits)

theorem fits_iff : g.Fits ↔
    Number.ofDigits g.notes ≤ Number.mostWord ∧ Number.ofDigits g.notes ≠ 0 ∧
      Number.ofDigits (g.more.getD 0 []) ≤ Number.mostWord ∧
        Number.ofDigits (g.more.getD 1 []) ≤ Number.mostWord := by
  have hnil : Number.ofDigits [] ≤ Number.mostWord := Nat.zero_le _
  have hlength := g.length_more
  rw [Fits, List.forall_mem_cons, and_left_comm]
  match hmore : g.more with
  | [] => simp [hnil]
  | [time] => simp [hnil]
  | [time, count] => simp
  | _ :: _ :: _ :: _ => simp [hmore] at hlength

theorem bind_ite_none {α γ : Type} (p : Prop) [Decidable p] (a : α) (f : α → Option γ) :
    (if p then some a else none).bind f = if p then f a else none := by
  split <;> rfl

/-- A tuplet is read as it is written, if it is one of some notes and its numbers fit. -/
theorem read?_text (meter : Meter) :
    Tuplet.read? g.text meter = if g.Fits then some (g.tuplet meter) else none := by
  have htime := readOptional?_eq 0 g.more 0 g.isDigit_more
  have hcount (absent : Nat) := readOptional?_eq absent g.more 1 g.isDigit_more
  rw [Tuplet.read?, g.pieces_text]
  simp only [List.headD_cons, List.getElem?_cons_succ, Option.bind_eq_bind, htime, hcount,
    Number.readNat?_of_isDigit g.isDigit_notes g.notes_ne_nil, bind_ite_none]
  simp only [if_congr g.fits_iff rfl rfl, ite_and, ite_not]
  rfl

end TupletText

/-! ## Every token of a tuplet -/

theorem exists_colonText (parts : Nat) (t : Text) :
    ∃ more : List Text, more.length ≤ parts ∧ (∀ digits ∈ more, ∀ c ∈ digits, c.isDigit = true) ∧
      t.take (Token.colonRun parts t) = colonText more := by
  induction parts, t using Token.colonRun.induct with
  | case1 parts rest ih =>
    obtain ⟨more,hlength,hdigits,htext⟩ := ih
    refine ⟨rest.takeWhile Char.isDigit :: more,Nat.succ_le_succ hlength,?_,?_⟩
    · exact List.forall_mem_cons.mpr ⟨fun _ hc => List.mem_takeWhile_imp hc,hdigits⟩
    · rw [Token.colonRun, Nat.add_assoc, Nat.add_comm 1, List.take_succ_cons, List.take_add, htext,
        Token.digitRun, Token.take_runLength]
      rfl
  | case2 parts t hnone =>
    have hrun : Token.colonRun parts t = 0 := by
      rw [Token.colonRun]
      exact hnone
    exact ⟨[],Nat.zero_le _,by simp,by rw [hrun]; rfl⟩

/-- An opening parenthesis with digits behind it is a written tuplet, up to the numbers of a second
colon. -/
theorem exists_tupletText (h : (Token.scanParenthesis t).1 = .tuplet) :
    ∃ g : TupletText, '(' :: t.take (Token.scanParenthesis t).2 = g.text := by
  unfold Token.scanParenthesis at h ⊢
  dsimp only at h ⊢
  split at h
  · cases h
  · next hcount =>
    obtain ⟨more,hlength,hdigits,htext⟩ := exists_colonText 2 (t.drop (Token.digitRun t))
    have hne : t.takeWhile Char.isDigit ≠ [] := fun hnil => hcount (congrArg List.length hnil)
    refine ⟨⟨t.takeWhile Char.isDigit,more,hne,hlength,fun _ hc => List.mem_takeWhile_imp hc,
      hdigits⟩,?_⟩
    rw [if_neg hcount, List.take_add, htext, Token.digitRun, Token.take_runLength]
    rfl

end AbcTune
