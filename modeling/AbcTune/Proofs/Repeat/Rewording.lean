import AbcTune.Proofs.Repeat.Nesting
import AbcTune.Proofs.Text.Pair

/-! # Texts that differ in comments and line ends

Repeats are written out in the text itself, where neither comments nor lines are told apart. Two
texts are alike if one becomes the other when its line feeds are written otherwise and some comments
are replaced, each of which takes a line. Where a text is cut at a mark, an alike text is cut at the
same mark, and what is joined again is alike if no comment gets behind other text of a line.
-/
namespace AbcTune.Repeat

open Text

/-- Marks that repeats, endings and sections are told by. -/
def marks : List Text := [closing, opening, double, ['[', '1'], ['|', '1'], ['[', 'V', ':']]

/-- A text that makes a line a comment if a percent sign stands before it, and holds no mark. -/
structure Quiet (a : Text) : Prop where
  noFeed : '\n' ∉ a
  single : a.head? ≠ some '%'
  noMark : ∀ mark ∈ marks, hasMark mark a = false

theorem quiet_iff {a : Text} :
    Quiet a ↔ '\n' ∉ a ∧ a.head? ≠ some '%' ∧ ∀ mark ∈ marks, hasMark mark a = false :=
  ⟨fun h => ⟨h.noFeed,h.single,h.noMark⟩,fun ⟨hfeed,hsingle,hmark⟩ => ⟨hfeed,hsingle,hmark⟩⟩

instance (a : Text) : Decidable (Quiet a) := decidable_of_iff' _ quiet_iff

/-- How line feeds are written, and which comments replace which. -/
structure Rewording where
  lineEnd : Text
  remark : Text → Text → Prop
  lineEnd_eq : lineEnd = ['\n'] ∨ lineEnd = ['\r', '\n']
  quiet {a b : Text} (h : remark a b) : Quiet a ∧ Quiet b

/-- A character that stays. Where carriage returns are written there are none before. -/
def Rewording.Keeps (x : Rewording) (c : Char) : Prop :=
  c ≠ '\n' ∧ (c = '\r' → x.lineEnd = ['\n'])

/-- A place in a text: nothing stands before it in its line, or other text, or a comment, which
only the end of the line can follow. -/
inductive Place where
  | lineStart
  | inLine
  | behindRemark
  deriving DecidableEq

/-- What can follow at the second place can follow at the first one too. -/
def Place.Opens (p q : Place) : Prop := p = q ∨ p = .lineStart ∧ q = .inLine

/-- Two texts that are alike, from one place to another. -/
inductive Rewording.Alike (x : Rewording) : Place → Place → Text → Text → Prop where
  | nil {p q : Place} (h : p.Opens q) : x.Alike p q [] []
  | char {p q : Place} {c : Char} {s s' : Text} (hp : p ≠ .behindRemark) (hc : x.Keeps c)
      (h : x.Alike .inLine q s s') : x.Alike p q (c :: s) (c :: s')
  | lineEnd {p q : Place} {s s' : Text} (h : x.Alike .lineStart q s s') :
      x.Alike p q ('\n' :: s) (x.lineEnd ++ s')
  | remark {q : Place} {a b s s' : Text} (hab : x.remark a b) (h : x.Alike .behindRemark q s s') :
      x.Alike .lineStart q ('%' :: a ++ s) ('%' :: b ++ s')

/-- A character that neither starts a comment nor ends a line. -/
def Solid (c : Char) : Prop := c ≠ '\n' ∧ c ≠ '\r' ∧ c ≠ '%'

instance (c : Char) : Decidable (Solid c) := inferInstanceAs (Decidable (_ ∧ _))

theorem solid_of_mem_marks : ∀ mark ∈ marks, ∀ c ∈ mark, Solid c := by
  simp [marks, closing, opening, double, Solid]

theorem solid_pair {a b : Char} (h : [a, b] ∈ marks) : Solid a ∧ Solid b :=
  ⟨solid_of_mem_marks _ h a (by simp),solid_of_mem_marks _ h b (by simp)⟩

theorem Quiet.freeOf {a b : Char} {t : Text} (h : Quiet t) (hmark : [a, b] ∈ marks) :
    FreeOf a b ('%' :: t) :=
  freeOf_cons.mpr ⟨fun ha => (solid_pair hmark).1.2.2 ha.1.symm,
    hasMark_eq_false_iff.mp (h.noMark _ hmark)⟩

namespace Rewording

variable {x : Rewording} {p q r : Place} {s s' t t' : Text} {a b c : Char}

theorem head?_lineEnd (hc : Solid c) (t : Text) : (x.lineEnd ++ t).head? ≠ some c := by
  obtain ⟨hfeed,hreturn,-⟩ := hc
  rcases x.lineEnd_eq with h | h
  · rw [h]
    exact fun h => hfeed (Option.some.inj h).symm
  · rw [h]
    exact fun h => hreturn (Option.some.inj h).symm

theorem freeOf_lineEnd (ha : Solid a) : FreeOf a b (x.lineEnd ++ t) ↔ FreeOf a b t := by
  have hcons {c : Char} (hc : c ≠ a) (t : Text) : FreeOf a b (c :: t) ↔ FreeOf a b t := by
    rw [freeOf_cons]
    exact and_iff_right fun h => hc h.1
  rcases x.lineEnd_eq with h | h
  · rw [h]
    exact hcons ha.1.symm t
  · rw [h]
    exact (hcons ha.2.1.symm _).trans (hcons ha.1.symm t)

namespace Alike

theorem loosen (h : x.Alike .inLine q s s') (hp : p ≠ .behindRemark) : x.Alike p q s s' := by
  cases h with
  | nil hopens =>
    rcases hopens with rfl | ⟨hp',-⟩
    · cases p with
      | lineStart => exact .nil (.inr ⟨rfl,rfl⟩)
      | inLine => exact .nil (.inl rfl)
      | behindRemark => exact absurd rfl hp
    · cases hp'
  | char _ hc h => exact .char hp hc h
  | lineEnd h => exact .lineEnd h

theorem append (h : x.Alike p q s s') (ht : x.Alike q r t t') :
    x.Alike p r (s ++ t) (s' ++ t') := by
  induction h with
  | nil hopens =>
    rcases hopens with rfl | ⟨rfl,rfl⟩
    · exact ht
    · exact ht.loosen (by decide)
  | char hp hc _ ih => exact .char hp hc (ih ht)
  | lineEnd _ ih =>
    rw [List.append_assoc]
    exact .lineEnd (ih ht)
  | remark hab _ ih =>
    rw [List.append_assoc, List.append_assoc]
    exact .remark hab (ih ht)

theorem kept (hp : p ≠ .behindRemark) (ht : ∀ c ∈ t, x.Keeps c) : x.Alike p .inLine t t := by
  induction t generalizing p with
  | nil => exact loosen (.nil (.inl rfl)) hp
  | cons c t ih =>
    exact .char hp (ht c List.mem_cons_self)
      (ih (by decide) fun d hd => ht d (List.mem_cons_of_mem _ hd))

theorem solid (hp : p ≠ .behindRemark) (ht : ∀ c ∈ t, Solid c) : x.Alike p .inLine t t :=
  kept hp fun c hc => ⟨(ht c hc).1,fun h => absurd h (ht c hc).2.1⟩

/-! ## The front of a text -/

theorem head?_iff (h : x.Alike p q s s') (hc : Solid c) :
    s.head? = some c ↔ s'.head? = some c := by
  cases h with
  | nil => exact Iff.rfl
  | char => exact Iff.rfl
  | lineEnd =>
    refine iff_of_false (fun h => hc.1 ?_) (x.head?_lineEnd hc _)
    exact (Option.some.inj h).symm
  | remark => exact Iff.rfl

theorem head?_behindRemark (h : x.Alike .behindRemark q s s') (hc : Solid c) :
    s.head? ≠ some c := by
  cases h with
  | nil => simp
  | char hp => exact absurd rfl hp
  | lineEnd => exact fun h => hc.1 (Option.some.inj h).symm

theorem of_cons (h : x.Alike p q (c :: s) t) (hc : Solid c) :
    ∃ s', t = c :: s' ∧ x.Alike .inLine q s s' := by
  cases h with
  | char _ _ h => exact ⟨_,rfl,h⟩
  | lineEnd => exact absurd rfl hc.1
  | remark => exact absurd rfl hc.2.2

theorem isPrefixOf_eq (h : x.Alike p q s s') {mark : Text} (hmark : ∀ c ∈ mark, Solid c) :
    mark.isPrefixOf s = mark.isPrefixOf s' := by
  induction mark generalizing p s s' with
  | nil => simp
  | cons c mark ih =>
    have hc := hmark c List.mem_cons_self
    by_cases hhead : s.head? = some c
    · obtain ⟨t,rfl⟩ := List.head?_eq_some_iff.mp hhead
      obtain ⟨t',rfl,hnext⟩ := h.of_cons hc
      rw [List.isPrefixOf_cons_cons, List.isPrefixOf_cons_cons,
        ih hnext fun d hd => hmark d (List.mem_cons_of_mem _ hd)]
    · have hfalse {t : Text} (ht : t.head? ≠ some c) : (c :: mark).isPrefixOf t = false := by
        rw [Bool.eq_false_iff]
        intro hmark
        obtain ⟨u,rfl⟩ := List.isPrefixOf_iff_prefix.mp hmark
        exact ht rfl
      rw [hfalse hhead, hfalse (mt (h.head?_iff hc).mpr hhead)]

/-- What follows a mark at the front of a text. -/
theorem of_append {mark : Text} (h : x.Alike .inLine q (mark ++ s) t)
    (hmark : ∀ c ∈ mark, Solid c) : ∃ s', t = mark ++ s' ∧ x.Alike .inLine q s s' := by
  induction mark generalizing t with
  | nil => exact ⟨t,rfl,h⟩
  | cons c mark ih =>
    obtain ⟨u,rfl,hnext⟩ := h.of_cons (hmark c List.mem_cons_self)
    obtain ⟨s',rfl,hs⟩ := ih hnext fun d hd => hmark d (List.mem_cons_of_mem _ hd)
    exact ⟨s',rfl,hs⟩

/-! ## Marks in a text -/

theorem freeOf_iff (h : x.Alike p q s s') (hmark : [a, b] ∈ marks) :
    FreeOf a b s ↔ FreeOf a b s' := by
  obtain ⟨ha,hb⟩ := solid_pair hmark
  induction h with
  | nil => exact Iff.rfl
  | char _ _ h ih =>
    rw [freeOf_cons, freeOf_cons, ih, h.head?_iff hb]
  | lineEnd _ ih =>
    rw [freeOf_lineEnd ha, ← ih, freeOf_cons]
    exact and_iff_right fun h => ha.1 h.1.symm
  | remark hab h ih =>
    have hseam (remark : Text) {t : Text} (ht : t.head? ≠ some b) :
        ¬(remark.getLast? = some a ∧ t.head? = some b) := fun h => ht h.2
    have hhead := h.head?_behindRemark hb
    rw [freeOf_append, freeOf_append, ih]
    refine and_congr (iff_of_true ((x.quiet hab).1.freeOf hmark) ((x.quiet hab).2.freeOf hmark)) ?_
    exact and_congr_right fun _ =>
      iff_of_true (hseam _ hhead) (hseam _ (mt (h.head?_iff hb).mpr hhead))

theorem exists_of_mark {u u' : Text} (h : x.Alike p q u u') (hmark : [a, b] ∈ marks)
    (hu : u = s ++ [a, b] ++ t) :
    ∃ s' t', u' = s' ++ [a, b] ++ t' ∧ x.Alike p .inLine s s' ∧ x.Alike .inLine q t t' := by
  obtain ⟨ha,hb⟩ := solid_pair hmark
  rw [List.append_assoc] at hu
  induction h generalizing s with
  | nil => simp at hu
  | @char p q c u u' hp hc h ih =>
    cases s with
    | nil =>
      obtain ⟨rfl,rfl⟩ := List.cons.inj hu
      obtain ⟨t',rfl,ht⟩ := h.of_cons hb
      exact ⟨[],t',rfl,loosen (.nil (.inl rfl)) hp,ht⟩
    | cons d s =>
      obtain ⟨rfl,rfl⟩ := List.cons.inj hu
      obtain ⟨s',t',rfl,hs,ht⟩ := ih rfl
      exact ⟨c :: s',t',rfl,.char hp hc hs,ht⟩
  | lineEnd h ih =>
    cases s with
    | nil => exact absurd (List.cons.inj hu).1.symm ha.1
    | cons d s =>
      obtain ⟨rfl,rfl⟩ := List.cons.inj hu
      obtain ⟨s',t',rfl,hs,ht⟩ := ih rfl
      exact ⟨x.lineEnd ++ s',t',by simp,.lineEnd hs,ht⟩
  | remark hab h ih =>
    rcases List.append_eq_append_iff.mp hu with ⟨front,rfl,rfl⟩ | ⟨back,hback,hrest⟩
    · obtain ⟨s',t',rfl,hs,ht⟩ := ih rfl
      exact ⟨_,t',by simp,.remark hab hs,ht⟩
    · -- the mark would stand in the comment or at its end
      have hfree := (x.quiet hab).1.freeOf hmark
      rw [hback] at hfree
      cases back with
      | nil => exact absurd (congrArg List.head? hrest.symm) (h.head?_behindRemark ha)
      | cons c back =>
        obtain ⟨hc,hrest⟩ := List.cons.inj hrest
        have hafter := freeOf_cons.mp (freeOf_append.mp hfree).2.1
        cases back with
        | nil => exact absurd (congrArg List.head? hrest.symm) (h.head?_behindRemark hb)
        | cons d back =>
          obtain ⟨hd,-⟩ := List.cons.inj hrest
          exact absurd ⟨hc.symm,congrArg some hd.symm⟩ hafter.1

/-- Cut at the first mark, alike texts are cut into alike texts. -/
theorem cutMark {u u' : Text} (h : x.Alike p q u u') (hmark : [a, b] ∈ marks) (hab : a ≠ b)
    (hcut : Text.cutMark [a, b] u = some (s,t)) :
    ∃ s' t', Text.cutMark [a, b] u' = some (s',t') ∧ x.Alike p .inLine s s' ∧
      x.Alike .inLine q t t' := by
  obtain ⟨hu,hfree⟩ := (cutMark_eq_some_iff hab).mp hcut
  obtain ⟨s',t',hu',hs,ht⟩ := h.exists_of_mark hmark hu
  exact ⟨s',t',(cutMark_eq_some_iff hab).mpr ⟨hu',(hs.freeOf_iff hmark).mp hfree⟩,hs,ht⟩

theorem cutMark_none {u u' : Text} (h : x.Alike p q u u') (hmark : [a, b] ∈ marks)
    (hcut : Text.cutMark [a, b] u = none) : Text.cutMark [a, b] u' = none :=
  cutMark_eq_none_iff.mpr ((h.freeOf_iff hmark).mp (cutMark_eq_none_iff.mp hcut))

theorem hasMark_eq (h : x.Alike p q s s') (hmark : [a, b] ∈ marks) :
    hasMark [a, b] s = hasMark [a, b] s' := by
  rw [← Bool.not_inj_iff, Bool.eq_iff_iff, Bool.not_eq_true', Bool.not_eq_true',
    hasMark_eq_false_iff, hasMark_eq_false_iff]
  exact h.freeOf_iff hmark

theorem cutLastMark {u u' : Text} (h : x.Alike p q u u') (hmark : [a, b] ∈ marks) (hab : a ≠ b)
    (hcut : Text.cutLastMark [a, b] u = some (s,t)) :
    ∃ s' t', Text.cutLastMark [a, b] u' = some (s',t') ∧ x.Alike p .inLine s s' ∧
      x.Alike .inLine q t t' := by
  obtain ⟨hu,hfree⟩ := (cutLastMark_eq_some_iff hab).mp hcut
  obtain ⟨s',t',hu',hs,ht⟩ := h.exists_of_mark hmark hu
  exact ⟨s',t',(cutLastMark_eq_some_iff hab).mpr ⟨hu',(ht.freeOf_iff hmark).mp hfree⟩,hs,ht⟩

theorem cutLastMark_none {u u' : Text} (h : x.Alike p q u u') (hmark : [a, b] ∈ marks)
    (hcut : Text.cutLastMark [a, b] u = none) : Text.cutLastMark [a, b] u' = none :=
  cutLastMark_eq_none_iff.mpr ((h.freeOf_iff hmark).mp (cutLastMark_eq_none_iff.mp hcut))

end Alike
end Rewording
end AbcTune.Repeat
