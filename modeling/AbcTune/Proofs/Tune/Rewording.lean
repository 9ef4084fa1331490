import AbcTune.Proofs.Repeat.RewordedExpansion
import AbcTune.Proofs.Tune.Repeated

/-! # Reading alike texts

A comment is passed over by the reading, and what ends a line is dropped. So alike texts whose
repeats are written out alike are read as the same tune: whatever the line ends are, and whatever
the comments say, as long as they hold no mark.
-/
namespace AbcTune

open Repeat

/-! ## Lines that are comments -/

def IsComment (line : Text) : Prop := ∃ a, line = '%' :: a ∧ a.head? ≠ some '%'

theorem IsComment.of_append {s e : Text} (h : IsComment (s ++ e)) (hs : s ≠ []) : IsComment s := by
  obtain ⟨a,ha,hhead⟩ := h
  obtain ⟨c,s,rfl⟩ := List.exists_cons_of_ne_nil hs
  rw [List.cons_append] at ha
  obtain ⟨rfl,rfl⟩ := List.cons.inj ha
  refine ⟨s,rfl,fun h => hhead ?_⟩
  rw [List.head?_append, h]
  rfl

theorem IsComment.dropLineEnd {line : Text} (h : IsComment line) :
    IsComment (Text.dropLineEnd line) := by
  obtain ⟨e,he,hline⟩ := Text.exists_lineEnd line
  refine IsComment.of_append (hline ▸ h) fun hnil => ?_
  rw [hnil, List.nil_append] at hline
  obtain ⟨a,ha,-⟩ := h
  have hhead : ∀ e ∈ Text.lineEnds, e.head? ≠ some '%' := by decide
  exact hhead e he (by rw [← hline, ha]; rfl)

theorem tokenize_comment {line : Text} (h : IsComment line) (number : Nat) :
    ∃ token, Token.tokenize line number = [token] ∧ token.kind = .comment := by
  obtain ⟨a,rfl,hhead⟩ := h
  have hdrop : Token.dropLineBreaks ('%' :: a) = '%' :: Token.dropLineBreaks a := by
    unfold Token.dropLineBreaks
    rw [List.reverse_cons, List.dropWhile_append]
    split
    · next hnil =>
      rw [List.isEmpty_iff.mp hnil]
      rfl
    · rw [List.reverse_append]
      rfl
  have hfront : Token.dropLineBreaks a <+: a := by
    unfold Token.dropLineBreaks
    rw [← List.reverse_suffix, List.reverse_reverse]
    exact List.dropWhile_suffix _
  rw [Token.tokenize, hdrop]
  unfold Token.ofLine
  split
  · next rest heq =>
    obtain ⟨more,hmore⟩ := hfront
    rw [(List.cons.inj heq).2] at hmore
    exact absurd (congrArg List.head? hmore).symm hhead
  · exact ⟨_,rfl,rfl⟩
  · next hname heq => exact absurd (List.cons.inj heq).1.symm hname
  · next hother _ => exact (hother _ rfl).elim

namespace TuneReading

theorem readLine_comment (r : TuneReading) {line : Text} (h : IsComment line) (number : Nat) :
    r.readLine line number = .ok r := by
  obtain ⟨token,htoken,hkind⟩ := tokenize_comment h number
  rw [readLine, htoken]
  exact r.readLineTokens_comment [] number hkind

/-- Lines that are the same but for comments are read alike. -/
theorem readLines_congr (r : TuneReading) {first : Nat} {lines lines' : List Text}
    (h : List.Forall₂ (fun l l' => l = l' ∨ IsComment l ∧ IsComment l') lines lines') :
    r.readLines (numberLines first lines) = r.readLines (numberLines first lines') := by
  induction h generalizing r first with
  | nil => rfl
  | @cons l l' lines lines' hl hlines ih =>
    rw [numberLines, numberLines, readLines, readLines]
    have hline : r.readLine l first = r.readLine l' first := by
      rcases hl with rfl | ⟨hl,hl'⟩
      · rfl
      · rw [r.readLine_comment hl, r.readLine_comment hl']
    rw [hline]
    exact bind_congr fun r' => ih r'

end TuneReading

namespace Repeat.Rewording

variable {x : Rewording} {q : Place} {s s' : Text}

theorem isComment_remark {a : Text} (ha : Quiet a) : IsComment ('%' :: a) := ⟨a,rfl,ha.single⟩

theorem SameLine.dropLineEnd {f f' : Text} (h : x.SameLine f f') :
    Text.dropLineEnd (f ++ ['\n']) = Text.dropLineEnd (f' ++ x.lineEnd) ∨
      IsComment (Text.dropLineEnd (f ++ ['\n'])) ∧
        IsComment (Text.dropLineEnd (f' ++ x.lineEnd)) := by
  have hcomment {a e : Text} (ha : Quiet a) (he : e.head? ≠ some '%') :
      IsComment (Text.dropLineEnd ('%' :: a ++ e)) := by
    refine IsComment.dropLineEnd ⟨a ++ e,rfl,?_⟩
    cases a with
    | nil => exact he
    | cons c a => exact ha.single
  cases h with
  | kept hf =>
    left
    rcases x.lineEnd_eq with hend | hend
    · rw [hend]
    · have hreturn : '\r' ∉ f := fun hmem => by
        have h := (hf _ hmem).2 rfl
        rw [hend] at h
        cases h
      rw [hend, Text.dropLineEnd_append (lineFeed_notMem hf) hreturn (by decide),
        Text.dropLineEnd_append (lineFeed_notMem hf) hreturn (by decide)]
  | remark hab =>
    obtain ⟨ha,hb⟩ := x.quiet hab
    refine .inr ⟨hcomment ha (by decide),hcomment hb ?_⟩
    rcases x.lineEnd_eq with hend | hend <;> rw [hend] <;> decide

theorem Blocks.lines {blocks blocks' : List Text} (h : x.Blocks q blocks blocks') :
    List.Forall₂ (fun l l' => l = l' ∨ IsComment l ∧ IsComment l') (blocks.map Text.dropLineEnd)
      (blocks'.map Text.dropLineEnd) := by
  induction h with
  | nil => exact .nil
  | last h =>
    refine .cons ?_ .nil
    cases h with
    | kept => exact .inl rfl
    | remark hab =>
      obtain ⟨ha,hb⟩ := x.quiet hab
      exact .inr ⟨(isComment_remark ha).dropLineEnd,(isComment_remark hb).dropLineEnd⟩
  | line h _ ih => exact .cons h.dropLineEnd ih

theorem hasKeyLine_congr {t t' : Text}
    (h : List.Forall₂ (fun l l' => l = l' ∨ IsComment l ∧ IsComment l') (Text.lines t)
      (Text.lines t')) : hasKeyLine t = hasKeyLine t' := by
  unfold hasKeyLine
  generalize Text.lines t = lines at h
  generalize Text.lines t' = lines' at h
  induction h with
  | nil => rfl
  | cons hl _ ih =>
    rw [List.any_cons, List.any_cons, ih]
    rcases hl with rfl | ⟨⟨a,rfl,-⟩,⟨b,rfl,-⟩⟩
    · rfl
    · rw [isKeyLine_percent, isKeyLine_percent]

/-- Alike texts that have room are read as the same tune. -/
theorem Alike.read (h : x.Alike .lineStart q s s') (hroom : HasRoom s) (hroom' : HasRoom s')
    (hclear : ∀ a b, x.remark a b → StaysClear a s) : Tune.read s = Tune.read s' := by
  have hlines {t t' : Text} (ht : x.Alike .lineStart q t t') (ds : List Diagnostic) :
      ((TuneReading.initial (hasKeyLine t)).report ds).readLines (numberLines 1 (Text.lines t)) =
        ((TuneReading.initial (hasKeyLine t')).report ds).readLines
          (numberLines 1 (Text.lines t')) := by
    have hall := ht.blocks.lines
    rw [hasKeyLine_congr hall]
    exact TuneReading.readLines_congr _ hall
  have hexpand := h.expand hroom hroom' hclear
  unfold Tune.read expandSource
  generalize Repeat.expand s = result at hexpand
  generalize Repeat.expand s' = result' at hexpand
  cases hexpand with
  | error e =>
    cases e with
    | limit =>
      dsimp only
      rw [ok_bind, ok_bind]
      dsimp only
      rw [hlines h]
    | startAfterEnd => rfl
  | ok ht =>
    dsimp only
    rw [ok_bind, ok_bind]
    dsimp only
    rw [hlines ht]

end Repeat.Rewording

/-! ## Line ends -/

namespace Tune

open Repeat.Rewording

/-- The text with a carriage return before each line feed. -/
def withReturns (s : Text) : Text := s.flatMap fun c => if c = '\n' then ['\r', '\n'] else [c]

theorem withReturns_cons (c : Char) (s : Text) :
    withReturns (c :: s) = (if c = '\n' then ['\r', '\n'] else [c]) ++ withReturns s := rfl

/-- Line feeds get carriage returns, and all comments stay. -/
def returns : Repeat.Rewording where
  lineEnd := ['\r', '\n']
  remark _ _ := False
  lineEnd_eq := .inr rfl
  quiet h := h.elim

theorem alike_withReturns {s : Text} (h : '\r' ∉ s) {p : Place} (hp : p ≠ .behindRemark) :
    returns.Alike p .inLine s (withReturns s) := by
  induction s generalizing p with
  | nil => exact Alike.loosen (.nil (.inl rfl)) hp
  | cons c s ih =>
    rw [List.mem_cons, not_or] at h
    rw [withReturns_cons]
    by_cases hc : c = '\n'
    · subst hc
      exact .lineEnd (ih h.2 (by decide))
    · rw [if_neg hc]
      exact .char hp ⟨hc,fun hreturn => absurd hreturn.symm h.1⟩ (ih h.2 (by decide))

theorem eq_withReturns {s s' : Text} {p q : Place} (h : returns.Alike p q s s') :
    s' = withReturns s := by
  induction h with
  | nil => rfl
  | char _ hc _ ih =>
    rw [withReturns_cons, if_neg hc.1, ih]
    rfl
  | lineEnd _ ih =>
    rw [withReturns_cons, if_pos rfl, ih]
    rfl
  | remark hab => exact hab.elim

/-- With carriage returns before its line feeds, a text is written out with them, or for the same
reason not, and read as the same tune. -/
theorem read_withReturns {s : Text} (h : '\r' ∉ s) (hroom : HasRoom s)
    (hroom' : HasRoom (withReturns s)) :
    Repeat.expand (withReturns s) = (Repeat.expand s).map withReturns ∧
      Tune.read (withReturns s) = Tune.read s := by
  have halike := alike_withReturns h (p := .lineStart) (by decide)
  refine ⟨?_,(halike.read hroom hroom' fun a b hab => hab.elim).symm⟩
  have hexpand := halike.expand hroom hroom' fun a b hab => hab.elim
  generalize Repeat.expand s = result at hexpand
  generalize Repeat.expand (withReturns s) = result' at hexpand
  cases hexpand with
  | error e => rfl
  | ok ht => exact congrArg Except.ok (eq_withReturns ht)

/-- A repeat over two lines, with an ending each time. -/
def twoLines : Text := "X:1\nL:1/4\nK:C\n|: C D |1 E\n F :|2 G ::\n A :|\n".toList

theorem read_withReturns_twoLines :
    '\r' ∉ twoLines ∧ HasRoom twoLines ∧ HasRoom (withReturns twoLines) ∧
      Repeat.expand (withReturns twoLines) = (Repeat.expand twoLines).map withReturns ∧
      Tune.read (withReturns twoLines) = Tune.read twoLines := by
  have hreturn : '\r' ∉ twoLines := by decide
  have hroom : HasRoom twoLines := by decide +kernel
  have hroom' : HasRoom (withReturns twoLines) := by decide +kernel
  exact ⟨hreturn,hroom,hroom',read_withReturns hreturn hroom hroom'⟩

/-! ## Comments -/

/-- One comment is replaced by another. -/
def replaced (a b : Text) (ha : Quiet a) (hb : Quiet b) : Repeat.Rewording where
  lineEnd := ['\n']
  remark c d := c = a ∧ d = b
  lineEnd_eq := .inl rfl
  quiet h := ⟨h.1 ▸ ha,h.2 ▸ hb⟩

section Comments

variable {a b front back : Text} {p : Place}

theorem alike_self {x : Repeat.Rewording} (hx : x.lineEnd = ['\n']) {s : Text}
    (hp : p ≠ .behindRemark) : x.Alike p .inLine s s := by
  induction s generalizing p with
  | nil => exact Alike.loosen (.nil (.inl rfl)) hp
  | cons c s ih =>
    by_cases hc : c = '\n'
    · subst hc
      have h := Alike.lineEnd (p := p) (ih (p := .lineStart) (by decide))
      rwa [hx] at h
    · exact .char hp ⟨hc,fun _ => hx⟩ (ih (by decide))

/-- A comment that holds no mark can be replaced by another one, wherever a repeat without an opening
mark does not come to start with it. -/
theorem read_replaced (hfront : front = [] ∨ front.getLast? = some '\n')
    (hback : back = [] ∨ back.head? = some '\n') (ha : Quiet a) (hb : Quiet b)
    (hroom : HasRoom (front ++ '%' :: a ++ back)) (hroom' : HasRoom (front ++ '%' :: b ++ back))
    (hclear : StaysClear a (front ++ '%' :: a ++ back)) :
    Tune.read (front ++ '%' :: a ++ back) = Tune.read (front ++ '%' :: b ++ back) := by
  have hbefore : (replaced a b ha hb).Alike .lineStart .lineStart front front := by
    rcases hfront with rfl | hlast
    · exact .nil (.inl rfl)
    · obtain ⟨front,rfl⟩ := List.getLast?_eq_some_iff.mp hlast
      exact (alike_self rfl (by decide)).append (.endLine .inLine)
  have hafter : ∃ q, (replaced a b ha hb).Alike .behindRemark q back back := by
    rcases hback with rfl | hhead
    · exact ⟨_,.nil (.inl rfl)⟩
    · obtain ⟨back,rfl⟩ := List.head?_eq_some_iff.mp hhead
      exact ⟨_,.lineEnd (alike_self rfl (by decide))⟩
  obtain ⟨q,hafter⟩ := hafter
  have halike := hbefore.append (.remark ⟨rfl,rfl⟩ hafter)
  rw [List.append_assoc, List.append_assoc] at *
  exact halike.read hroom hroom' fun c d hcd => hcd.1 ▸ hclear

theorem read_replaced_behindRepeat :
    let front := "X:1\nL:1/4\nK:C\n|: C D :|\n".toList
    let back := "\nE\n".toList
    front.getLast? = some '\n' ∧ back.head? = some '\n' ∧ Quiet " twice".toList ∧
      Quiet " both times".toList ∧
      Tune.read (front ++ '%' :: " twice".toList ++ back) =
        Tune.read (front ++ '%' :: " both times".toList ++ back) := by
  refine ⟨by decide,by decide,by decide +kernel,by decide +kernel,?_⟩
  exact read_replaced (.inr (by decide)) (.inr (by decide)) (by decide +kernel) (by decide +kernel)
    (by decide +kernel) (by decide +kernel) (by decide +kernel)

/-- A closing mark in a comment repeats the music before it. -/
theorem read_replaced_mark :
    ∃ tune other, Tune.read "X:1\nL:1/4\nK:C\nC\nD\n%\n".toList = .ok tune ∧
      Tune.read "X:1\nL:1/4\nK:C\nC\nD\n% :|\n".toList = .ok other ∧
      tune.diagnostics = [] ∧ other.diagnostics = [] ∧
      tune.pitches = [60, 62] ∧ other.pitches = [60, 62, 62] ∧ other.events ≠ tune.events := by
  have hplain : inOrder? "X:1\nL:1/4\nK:C\nC\nD\n%\n".toList = some [60, 62] := by
    decide +kernel
  have hmark : inOrder? "X:1\nL:1/4\nK:C\nC\nD\n% :|\n".toList = some [60, 62, 62] := by
    decide +kernel
  obtain ⟨tune,htune,hnone,hpitches⟩ := read_of_inOrder? hplain
  obtain ⟨other,hother,hnone',hpitches'⟩ := read_of_inOrder? hmark
  refine ⟨tune,other,htune,hother,hnone,hnone',hpitches,hpitches',fun hevents => ?_⟩
  have hsame : other.pitches = tune.pitches := congrArg (List.map _) hevents
  rw [hpitches, hpitches'] at hsame
  cases hsame

end Comments

end Tune
end AbcTune
