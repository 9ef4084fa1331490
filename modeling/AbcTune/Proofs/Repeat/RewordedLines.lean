import AbcTune.Proofs.Repeat.Division
import AbcTune.Proofs.Repeat.Lead
import AbcTune.Proofs.Repeat.RewordedPairs
import AbcTune.Proofs.Token.Line

/-! # Lines of alike texts

Alike texts have as many lines, and the lines at one place are the same but for what ends them, or
both are comments. So the header ends in the same line, the sections start at the same places, and
so does the music of a section.
-/
namespace AbcTune.Repeat

open Text

namespace Rewording

variable {x : Rewording} {p q r : Place} {s s' t t' u u' : Text}

/-- How alike texts go on to the end of a line. -/
inductive FirstLine (x : Rewording) : Place → Place → Text → Text → Prop where
  | last {p q : Place} {f : Text} (hf : ∀ c ∈ f, x.Keeps c) : x.FirstLine p q f f
  | line {p q : Place} {f s s' : Text} (hf : ∀ c ∈ f, x.Keeps c) (h : x.Alike .lineStart q s s') :
      x.FirstLine p q (f ++ '\n' :: s) (f ++ (x.lineEnd ++ s'))
  | lastRemark {a b : Text} (hab : x.remark a b) :
      x.FirstLine .lineStart .behindRemark ('%' :: a) ('%' :: b)
  | remark {q : Place} {a b s s' : Text} (hab : x.remark a b) (h : x.Alike .lineStart q s s') :
      x.FirstLine .lineStart q ('%' :: a ++ '\n' :: s) ('%' :: b ++ (x.lineEnd ++ s'))

theorem lineFeed_notMem {f : Text} (hf : ∀ c ∈ f, x.Keeps c) : '\n' ∉ f :=
  fun hmem => (hf _ hmem).1 rfl

namespace Alike

theorem firstLine (h : x.Alike p q s s') (hp : p ≠ .behindRemark) : x.FirstLine p q s s' := by
  have hnone (c : Char) (hc : c ∈ ([] : Text)) : x.Keeps c := absurd hc List.not_mem_nil
  induction h with
  | nil => exact .last hnone
  | @char p q c s s' _ hc h ih =>
    have hcons {f : Text} (hf : ∀ d ∈ f, x.Keeps d) : ∀ d ∈ c :: f, x.Keeps d := by
      intro d hd
      rcases List.mem_cons.mp hd with rfl | hd
      · exact hc
      · exact hf d hd
    cases ih (by decide) with
    | last hf => exact .last (hcons hf)
    | line hf hs => exact .line (hcons hf) hs
  | lineEnd h => exact .line hnone h
  | remark hab h =>
    cases h with
    | nil hopens =>
      rcases hopens with rfl | ⟨hp',-⟩
      · rw [List.append_nil, List.append_nil]
        exact .lastRemark hab
      · cases hp'
    | char hp' => exact absurd rfl hp'
    | lineEnd h => exact .remark hab h

end Alike

/-! ## Blocks of lines -/

theorem lineBlocks_lineEnd (hfeed : '\n' ∉ s) (t : Text) :
    lineBlocks (s ++ (x.lineEnd ++ t)) = (s ++ x.lineEnd) :: lineBlocks t := by
  rcases x.lineEnd_eq with h | h
  · rw [h]
    exact lineBlocks_line hfeed t
  · have hreturn : '\n' ∉ s ++ ['\r'] := by simpa using hfeed
    have hline := lineBlocks_line hreturn t
    rw [h]
    simpa using hline

theorem lineEnd_mem : x.lineEnd ∈ lineEnds := by
  rcases x.lineEnd_eq with h | h
  · rw [h]
    decide
  · rw [h]
    decide

theorem bracket_notMem_lineEnd : ']' ∉ x.lineEnd := by
  rcases x.lineEnd_eq with h | h
  · rw [h]
    decide
  · rw [h]
    decide

/-- Two lines without what ends them: the same, or two comments. -/
inductive SameLine (x : Rewording) : Text → Text → Prop where
  | kept {f : Text} (hf : ∀ c ∈ f, x.Keeps c) : x.SameLine f f
  | remark {a b : Text} (hab : x.remark a b) : x.SameLine ('%' :: a) ('%' :: b)

/-- The lines of alike texts with what ends them. -/
inductive Blocks (x : Rewording) (q : Place) : List Text → List Text → Prop where
  | nil (h : Place.lineStart.Opens q) : x.Blocks q [] []
  | last {f f' : Text} (h : x.SameLine f f') (hq : x.Alike .lineStart q f f') :
      x.Blocks q [f] [f']
  | line {f f' : Text} {rest rest' : List Text} (h : x.SameLine f f') (hrest : x.Blocks q rest rest') :
      x.Blocks q ((f ++ ['\n']) :: rest) ((f' ++ x.lineEnd) :: rest')

theorem Alike.blocks (h : x.Alike .lineStart q s s') :
    x.Blocks q (lineBlocks s) (lineBlocks s') := by
  have hremark {a : Text} (ha : Quiet a) : '\n' ∉ '%' :: a := by simpa using ha.noFeed
  induction hn : s.length using Nat.strongRecOn generalizing s s' with
  | ind n ih =>
    subst hn
    have hfirst := h.firstLine (by decide)
    cases hfirst with
    | last hf =>
      by_cases hnil : s = []
      · subst hnil
        cases h with
        | nil hopens => exact .nil hopens
      · have hblocks : lineBlocks s = [s] :=
          lineBlocksFrom_of_notMem [] (lineFeed_notMem hf) (.inr hnil)
        rw [hblocks]
        exact .last (.kept hf) h
    | @line _ _ f s s' hf hs =>
      rw [lineBlocks_line (lineFeed_notMem hf), lineBlocks_lineEnd (lineFeed_notMem hf)]
      exact .line (.kept hf) (ih s.length (by simp; omega) hs rfl)
    | @lastRemark a b hab =>
      have hblocks {a : Text} (ha : Quiet a) : lineBlocks ('%' :: a) = ['%' :: a] :=
        lineBlocksFrom_of_notMem [] (hremark ha) (.inr (by simp))
      rw [hblocks (x.quiet hab).1, hblocks (x.quiet hab).2]
      exact .last (.remark hab) h
    | @remark _ a b s s' hab hs =>
      rw [lineBlocks_line (hremark (x.quiet hab).1), lineBlocks_lineEnd (hremark (x.quiet hab).2)]
      exact .line (.remark hab) (ih s.length (by simp; omega) hs rfl)

theorem Alike.endLine (p : Place) : x.Alike p .lineStart ['\n'] x.lineEnd := by
  have h : x.Alike p .lineStart ['\n'] (x.lineEnd ++ []) := .lineEnd (.nil (.inl rfl))
  rwa [List.append_nil] at h

theorem SameLine.alike {f f' : Text} (h : x.SameLine f f') :
    x.Alike .lineStart .lineStart (f ++ ['\n']) (f' ++ x.lineEnd) := by
  cases h with
  | kept hf => exact (Alike.kept (by decide) hf).append (.endLine _)
  | remark hab => exact .remark hab (.endLine _)

theorem Blocks.flatten {blocks blocks' : List Text} (h : x.Blocks q blocks blocks') :
    x.Alike .lineStart q blocks.flatten blocks'.flatten := by
  induction h with
  | nil hopens => exact .nil hopens
  | last _ hq =>
    rw [List.flatten_singleton, List.flatten_singleton]
    exact hq
  | line h _ ih =>
    rw [List.flatten_cons, List.flatten_cons]
    exact h.alike.append ih

/-! ## The start of the music -/

/-- Size of what comes before the music in a line that is no field. -/
def voiceFieldLength (line : Text) : Nat :=
  if ['[', 'V', ':'].isPrefixOf (trimStart line) then
    ((cutAt ']' line).map fun p => p.1.length + 1).getD 0
  else 0

theorem voiceFieldLength_le (line : Text) : voiceFieldLength line ≤ line.length := by
  unfold voiceFieldLength
  split
  · by_cases hmem : ']' ∈ line
    · obtain ⟨before,after,rfl,hbefore⟩ := List.eq_append_cons_of_mem hmem
      rw [cutAt_append hbefore]
      simp
    · rw [cutAt_of_notMem hmem]
      exact Nat.zero_le _
  · exact Nat.zero_le _

theorem leadLength_append (line : Text) {e : Text} (he : ∀ c ∈ e, isBlank c = true)
    (hclose : ']' ∉ e) (rest : List Text) :
    leadLength ((line ++ e) :: rest) =
      if isField (trimStart line) then (line ++ e).length + leadLength rest
      else voiceFieldLength line := by
  by_cases hfield : isField (trimStart line) = true
  · rw [if_pos hfield, leadLength_of_isField ((isField_append line he).trans hfield)]
  · have hnot := (isField_append line he).trans (Bool.not_eq_true _ ▸ hfield)
    have hbrackets : ['[', 'V', ':'].isPrefixOf (trimStart (line ++ e)) =
        ['[', 'V', ':'].isPrefixOf (trimStart line) := by
      refine isPrefixOf_trimStart_append line fun c hc => ⟨he c hc,fun hmem => ?_⟩
      have hblank := he c hc
      revert hblank
      simp only [List.mem_cons, List.not_mem_nil, or_false] at hmem
      rcases hmem with rfl | rfl | rfl <;> decide
    rw [if_neg hfield, leadLength_of_not_isField hnot, hbrackets, voiceFieldLength]
    by_cases hmem : ']' ∈ line
    · obtain ⟨before,after,rfl,hbefore⟩ := List.eq_append_cons_of_mem hmem
      rw [List.append_assoc, List.cons_append, cutAt_append hbefore, cutAt_append hbefore]
      rfl
    · rw [cutAt_of_notMem hmem, cutAt_of_notMem fun h => (List.mem_append.mp h).elim hmem hclose]

theorem isField_percent (a : Text) : isField (trimStart ('%' :: a)) = false := by
  have htrim : trimStart ('%' :: a) = '%' :: a := rfl
  rw [htrim]
  cases a with
  | nil => rfl
  | cons c a =>
    unfold isField
    split
    · next heq =>
      cases heq
      rfl
    · rfl

theorem musicStart_lineFeed (hfeed : '\n' ∉ s) (rest : Text) :
    musicStart (s ++ '\n' :: rest) =
      if isField (trimStart s) then s.length + 1 + musicStart rest else voiceFieldLength s := by
  rw [musicStart, lineBlocks_line hfeed, leadLength_append _ (isBlank_of_mem_lineEnds (by decide)) (by decide),
    List.length_append]
  rfl

theorem musicStart_lineEnd (hfeed : '\n' ∉ s) (rest : Text) :
    musicStart (s ++ (x.lineEnd ++ rest)) =
      if isField (trimStart s) then s.length + x.lineEnd.length + musicStart rest
      else voiceFieldLength s := by
  rw [musicStart, lineBlocks_lineEnd hfeed, leadLength_append _
    (isBlank_of_mem_lineEnds lineEnd_mem) bracket_notMem_lineEnd, List.length_append]
  rfl

/-- The line that a mark is in, behind some text of it. -/
theorem Alike.lineBlocks_front (ht : x.Alike .inLine q t t') {c : Char} (hc : Solid c)
    (hhead : t.head? = some c) {f : Text} (hfeed : '\n' ∉ f) :
    ∃ g e e' rest rest', g ≠ [] ∧ (∀ d ∈ e, isBlank d = true) ∧ ']' ∉ e ∧
      (∀ d ∈ e', isBlank d = true) ∧ ']' ∉ e' ∧ lineBlocks (f ++ t) = (f ++ g ++ e) :: rest ∧
      lineBlocks (f ++ t') = (f ++ g ++ e') :: rest' := by
  have hfirst := ht.firstLine (by decide)
  cases hfirst with
  | last hg =>
    have hne : t ≠ [] := by
      rintro rfl
      cases hhead
    have hnot : '\n' ∉ f ++ t := fun h => (List.mem_append.mp h).elim hfeed (lineFeed_notMem hg)
    have hblocks : lineBlocks (f ++ t) = [f ++ t] :=
      lineBlocksFrom_of_notMem [] hnot (.inr (by simp [hne]))
    exact ⟨t,[],[],[],[],hne,by simp,by simp,by simp,by simp,by simpa using hblocks,
      by simpa using hblocks⟩
  | @line _ _ g s s' hg hs =>
    have hne : g ≠ [] := by
      rintro rfl
      exact hc.1 (Option.some.inj hhead).symm
    have hnot : '\n' ∉ f ++ g := fun h => (List.mem_append.mp h).elim hfeed (lineFeed_notMem hg)
    refine ⟨g,['\n'],x.lineEnd,lineBlocks s,lineBlocks s',hne,isBlank_of_mem_lineEnds (by decide),by decide,
      isBlank_of_mem_lineEnds lineEnd_mem,bracket_notMem_lineEnd,?_,?_⟩
    · rw [← List.append_assoc, lineBlocks_line hnot]
    · rw [← List.append_assoc, lineBlocks_lineEnd hnot]

/-- Where the music starts in front of a mark: behind the mark, or at the same place. -/
theorem Alike.musicStart (h : x.Alike p .inLine s s') (hp : p ≠ .behindRemark)
    (ht : x.Alike .inLine q t t') {c : Char} (hc : Solid c) (hhead : t.head? = some c) :
    (s.length < Repeat.musicStart (s ++ t) ∧ s'.length < Repeat.musicStart (s' ++ t')) ∨
      ∃ lead lead' content content', s = lead ++ content ∧ s' = lead' ++ content' ∧
        Repeat.musicStart (s ++ t) = lead.length ∧ Repeat.musicStart (s' ++ t') = lead'.length ∧
        x.Alike p .inLine lead lead' ∧ x.Alike .lineStart .inLine content content' := by
  have htake {f : Text} (hf : ∀ c ∈ f, x.Keeps c) {p : Place} (hp : p ≠ .behindRemark) (k : Nat) :
      x.Alike p .inLine (f.take k) (f.take k) :=
    kept hp fun c hc => hf c (List.mem_of_mem_take hc)
  have hdrop {f : Text} (hf : ∀ c ∈ f, x.Keeps c) (k : Nat) :
      x.Alike .lineStart .inLine (f.drop k) (f.drop k) :=
    kept (by decide) fun c hc => hf c (List.mem_of_mem_drop hc)
  induction hn : s.length using Nat.strongRecOn generalizing p s s' with
  | ind n ih =>
    subst hn
    have hfirst := h.firstLine hp
    cases hfirst with
    | last hf =>
      obtain ⟨g,e,e',rest,rest',hg,he,hclose,he',hclose',hblocks,hblocks'⟩ :=
        ht.lineBlocks_front hc hhead (lineFeed_notMem hf)
      have hpos := List.length_pos_iff.mpr hg
      rw [Repeat.musicStart, Repeat.musicStart, hblocks, hblocks', leadLength_append _ he hclose,
        leadLength_append _ he' hclose']
      split
      · simp only [List.length_append]
        exact .inl ⟨by omega,by omega⟩
      · by_cases hk : s.length < voiceFieldLength (s ++ g)
        · exact .inl ⟨hk,hk⟩
        · have hlength : (s.take (voiceFieldLength (s ++ g))).length = voiceFieldLength (s ++ g) :=
            List.length_take_of_le (Nat.not_lt.mp hk)
          exact .inr ⟨_,_,_,_,(List.take_append_drop _ s).symm,(List.take_append_drop _ s).symm,
            hlength.symm,hlength.symm,htake hf hp _,hdrop hf _⟩
    | @line _ _ f s s' hf hs =>
      have hfeed := lineFeed_notMem hf
      simp only [List.append_assoc, List.cons_append]
      rw [musicStart_lineFeed hfeed, musicStart_lineEnd hfeed]
      split
      · rcases ih s.length (by simp; omega) hs (by decide) rfl with
          ⟨hlt,hlt'⟩ | ⟨lead,lead',content,content',rfl,rfl,hlead,hlead',hleads,hcontents⟩
        · simp only [List.length_append, List.length_cons]
          exact .inl ⟨by omega,by omega⟩
        · refine .inr ⟨f ++ '\n' :: lead,f ++ (x.lineEnd ++ lead'),content,content',by simp,by simp,
            ?_,?_,(kept hp hf).append (.lineEnd hleads),hcontents⟩
          · rw [hlead]
            simp only [List.length_append, List.length_cons]
            omega
          · rw [hlead']
            simp only [List.length_append]
            omega
      · have hlength : (f.take (voiceFieldLength f)).length = voiceFieldLength f :=
          List.length_take_of_le (voiceFieldLength_le f)
        refine .inr ⟨_,_,f.drop (voiceFieldLength f) ++ '\n' :: s,
          f.drop (voiceFieldLength f) ++ (x.lineEnd ++ s'),?_,?_,hlength.symm,hlength.symm,
          htake hf hp _,(hdrop hf _).append (.lineEnd hs)⟩
        · rw [← List.append_assoc, List.take_append_drop]
        · rw [← List.append_assoc (f.take _), List.take_append_drop]
    | @remark _ a b s s' hab hs =>
      obtain ⟨ha,hb⟩ := x.quiet hab
      have hfeed {a : Text} (ha : Quiet a) : '\n' ∉ '%' :: a := by simpa using ha.noFeed
      refine .inr ⟨[],[],_,_,rfl,rfl,?_,?_,loosen (.nil (.inl rfl)) (by decide),h⟩
      · rw [List.append_assoc]
        exact (musicStart_lineFeed (hfeed ha) _).trans (by rw [isField_percent]; rfl)
      · rw [List.append_assoc, List.append_assoc]
        exact (musicStart_lineEnd (hfeed hb) _).trans (by rw [isField_percent]; rfl)

/-! ## The header -/

theorem isKeyLine_percent (a : Text) : isKeyLine ('%' :: a) = false := by
  have htrim : trimStart ('%' :: a) = '%' :: a := rfl
  rw [isKeyLine, htrim]
  rfl

theorem isKeyLine_lineEnd (f : Text) : isKeyLine (f ++ x.lineEnd) = isKeyLine f :=
  isKeyLine_append f (Token.isLineBreak_of_mem_lineEnds lineEnd_mem)

theorem splitAtKey_cons (f : Text) (rest : List Text) :
    splitAtKey (f :: rest) =
      if isKeyLine f then some ([f],rest)
      else (splitAtKey rest).map fun parts => (f :: parts.1,parts.2) := rfl

theorem SameLine.isKeyLine_eq {f f' : Text} (h : x.SameLine f f') :
    isKeyLine f = isKeyLine f' := by
  cases h with
  | kept => rfl
  | remark => rw [isKeyLine_percent, isKeyLine_percent]

/-- The header ends in the same line. If that is the last line, no body is left. -/
theorem Blocks.splitAtKey {blocks blocks' : List Text} (h : x.Blocks q blocks blocks') :
    (Repeat.splitAtKey blocks = none ∧ Repeat.splitAtKey blocks' = none) ∨
      ∃ r head head' body body', Repeat.splitAtKey blocks = some (head,body) ∧
        Repeat.splitAtKey blocks' = some (head',body') ∧
        x.Alike .lineStart r head.flatten head'.flatten ∧
        x.Alike r q body.flatten body'.flatten ∧ (r = .lineStart ∨ body = [] ∧ body' = []) := by
  induction h with
  | nil => exact .inl ⟨rfl,rfl⟩
  | @last f f' h hq =>
    rw [splitAtKey_cons, splitAtKey_cons, h.isKeyLine_eq]
    split
    · refine .inr ⟨q,[f],[f'],[],[],rfl,rfl,?_,.nil (.inl rfl),.inr ⟨rfl,rfl⟩⟩
      rw [List.flatten_singleton, List.flatten_singleton]
      exact hq
    · exact .inl ⟨rfl,rfl⟩
  | line h hrest ih =>
    rw [splitAtKey_cons, splitAtKey_cons, isKeyLine_append _ (Token.isLineBreak_of_mem_lineEnds (by decide)), isKeyLine_lineEnd,
      h.isKeyLine_eq]
    split
    · refine .inr ⟨.lineStart,_,_,_,_,rfl,rfl,?_,hrest.flatten,.inl rfl⟩
      rw [List.flatten_singleton, List.flatten_singleton]
      exact h.alike
    · rcases ih with ⟨hnone,hnone'⟩ | ⟨r,head,head',body,body',hsplit,hsplit',hhead,hbody,hplace⟩
      · rw [hnone, hnone']
        exact .inl ⟨rfl,rfl⟩
      · rw [hsplit, hsplit']
        refine .inr ⟨r,_,_,body,body',rfl,rfl,?_,hbody,hplace⟩
        rw [List.flatten_cons, List.flatten_cons]
        exact h.alike.append hhead

/-! ## Sections -/

/-- Texts that follow each other and are alike one by one. -/
inductive Parts (x : Rewording) : Place → Place → List Text → List Text → Prop where
  | nil {p q : Place} (h : p.Opens q) : x.Parts p q [] []
  | cons {p q r : Place} {s s' : Text} {rest rest' : List Text} (hp : p ≠ .behindRemark)
      (h : x.Alike p r s s') (hrest : x.Parts r q rest rest') : x.Parts p q (s :: rest) (s' :: rest')

theorem Alike.eq_nil_iff (h : x.Alike p q s s') : s = [] ↔ s' = [] := by
  cases h with
  | nil => exact Iff.rfl
  | char => exact iff_of_false (List.cons_ne_nil _ _) (List.cons_ne_nil _ _)
  | lineEnd =>
    refine iff_of_false (List.cons_ne_nil _ _) ?_
    rcases x.lineEnd_eq with h | h <;> simp [h]
  | remark => exact iff_of_false (List.cons_ne_nil _ _) (List.cons_ne_nil _ _)

theorem isSome_cutMarkFrom (mark passed passed' t : Text) :
    (cutMarkFrom mark passed t).isSome = (cutMarkFrom mark passed' t).isSome := by
  induction t generalizing passed passed' with
  | nil => rfl
  | cons c t ih =>
    rw [cutMarkFrom, cutMarkFrom]
    split
    · rfl
    · exact ih _ _

theorem hasMark_cons {mark : Text} {c : Char} {t : Text} (h : hasMark mark (c :: t) = false) :
    mark.isPrefixOf (c :: t) = false ∧ hasMark mark t = false := by
  rw [hasMark, Text.cutMark, cutMarkFrom] at h
  split at h
  · cases h
  · next hstarts => exact ⟨Bool.not_eq_true _ ▸ hstarts,(isSome_cutMarkFrom _ _ _ _).trans h⟩

/-- No section starts in a comment. -/
theorem sectionsFrom_quiet {a : Text} (hfeed : '\n' ∉ a)
    (hmark : hasMark ['[', 'V', ':'] a = false) (ht : ∀ c ∈ t.head?, c ∉ ['[', 'V', ':'])
    (current : Text) :
    sectionsFrom [] current false (a ++ t) = sectionsFrom [] (a.reverse ++ current) false t := by
  induction a generalizing current with
  | nil => rfl
  | cons c a ih =>
    obtain ⟨hstarts,hmark⟩ := hasMark_cons hmark
    have hc : c ≠ '\n' := fun hc => hfeed (hc ▸ List.mem_cons_self)
    have hstart : startsSection false (c :: (a ++ t)) = false := by
      rw [startsSection, ← List.cons_append, isPrefixOf_append _ ht, hstarts]
      rfl
    rw [List.cons_append, sectionsFrom, hstart]
    have hrest := ih (fun h => hfeed (List.mem_cons_of_mem c h)) hmark (c :: current)
    simpa [hc] using hrest

theorem sectionsFrom_lineFeed (current : Text) (lineStart : Bool) (t : Text) :
    sectionsFrom [] current lineStart ('\n' :: t) = sectionsFrom [] ('\n' :: current) true t := by
  simp [Repeat.sectionsFrom, startsSection, List.isPrefixOf]

theorem sectionsFrom_lineEnd (current : Text) (lineStart : Bool) (t : Text) :
    sectionsFrom [] current lineStart (x.lineEnd ++ t) =
      sectionsFrom [] (x.lineEnd.reverse ++ current) true t := by
  rcases x.lineEnd_eq with h | h
  · rw [h]
    exact sectionsFrom_lineFeed current lineStart t
  · have hreturn : startsSection lineStart ('\r' :: '\n' :: t) = false := by
      simp [startsSection, List.isPrefixOf]
    rw [h, List.cons_append, List.singleton_append, Repeat.sectionsFrom, hreturn]
    exact sectionsFrom_lineFeed _ _ t

theorem sectionsFrom_remark {a : Text} (ha : Quiet a) (ht : ∀ c ∈ t.head?, c ∉ ['[', 'V', ':'])
    (current : Text) (lineStart : Bool) :
    sectionsFrom [] current lineStart ('%' :: a ++ t) =
      sectionsFrom [] (('%' :: a).reverse ++ current) false t := by
  have hpercent : startsSection lineStart ('%' :: (a ++ t)) = false := by
    simp [startsSection, List.isPrefixOf]
  have hflag : (decide ('%' = '\n') || (lineStart && isBlank '%')) = false := by
    cases lineStart <;> decide
  rw [List.cons_append, Repeat.sectionsFrom, hpercent, hflag]
  have hrest := sectionsFrom_quiet ha.noFeed (ha.noMark _ (by decide)) ht ('%' :: current)
  simpa using hrest

theorem Alike.startsSection_eq (h : x.Alike p q s s') (lineStart : Bool) :
    startsSection lineStart s = startsSection lineStart s' := by
  rw [startsSection, startsSection, h.isPrefixOf_eq (by simp [Solid]),
    h.isPrefixOf_eq (by simp [Solid])]

theorem Alike.sectionsFrom (h : x.Alike r q t t') (hs : x.Alike p r s s') (hp : p ≠ .behindRemark)
    {lineStart lineStart' : Bool} (hstart : r ≠ .behindRemark → lineStart = lineStart') :
    x.Parts p q (Repeat.sectionsFrom [] s.reverse lineStart t)
      (Repeat.sectionsFrom [] s'.reverse lineStart' t') := by
  induction h generalizing p s s' lineStart lineStart' with
  | nil hopens =>
    have hall := hs.append (.nil hopens)
    rw [List.append_nil, List.append_nil] at hall
    by_cases hnil : s = []
    · obtain rfl := hs.eq_nil_iff.mp hnil
      subst hnil
      cases hall with
      | nil hopens => exact .nil hopens
    · have hnil' := mt hs.eq_nil_iff.mpr hnil
      simp only [Repeat.sectionsFrom, List.isEmpty_reverse, List.isEmpty_iff, hnil, hnil',
        if_false, List.reverse_reverse]
      exact .cons hp hall (.nil (.inl rfl))
  | @char r q c t t' hr hc h ih =>
    have hone : x.Alike r .inLine [c] [c] := .char hr hc (.nil (.inl rfl))
    have hempty : s.reverse.isEmpty = s'.reverse.isEmpty := by
      rw [Bool.eq_iff_iff, List.isEmpty_reverse, List.isEmpty_reverse, List.isEmpty_iff,
        List.isEmpty_iff]
      exact hs.eq_nil_iff
    rw [Repeat.sectionsFrom, Repeat.sectionsFrom, hstart hr, (Alike.char hr hc h).startsSection_eq,
      hempty]
    split
    · rw [sectionsFrom_eq, sectionsFrom_eq [_], List.reverse_singleton, List.reverse_singleton,
        List.reverse_reverse, List.reverse_reverse]
      exact .cons hp hs (ih hone hr fun _ => rfl)
    · have hrest := ih (hs.append hone) hp fun _ =>
        (rfl : (decide (c = '\n') || (lineStart' && isBlank c)) = _)
      rw [List.reverse_append, List.reverse_append] at hrest
      exact hrest
  | lineEnd h ih =>
    have hrest := ih (hs.append (Alike.endLine _)) hp fun _ => (rfl : true = true)
    rw [List.reverse_append, List.reverse_append] at hrest
    rw [sectionsFrom_lineFeed, sectionsFrom_lineEnd]
    exact hrest
  | @remark q a b t t' hab h ih =>
    have hone : x.Alike .lineStart .behindRemark ('%' :: a ++ []) ('%' :: b ++ []) :=
      .remark hab (.nil (.inl rfl))
    rw [List.append_nil, List.append_nil] at hone
    have hrest := ih (hs.append hone) hp fun _ => (rfl : false = false)
    rw [List.reverse_append, List.reverse_append] at hrest
    have hsolid : ∀ c ∈ ['[', 'V', ':'], Solid c := by simp [Solid]
    have hseam : ∀ c ∈ t.head?, c ∉ ['[', 'V', ':'] := fun c hc hmem =>
      h.head?_behindRemark (hsolid c hmem) hc
    have hseam' : ∀ c ∈ t'.head?, c ∉ ['[', 'V', ':'] := fun c hc hmem => by
      exact h.head?_behindRemark (hsolid c hmem) ((h.head?_iff (hsolid c hmem)).mpr hc)
    rw [sectionsFrom_remark (x.quiet hab).1 hseam, sectionsFrom_remark (x.quiet hab).2 hseam']
    exact hrest

theorem Alike.sections (h : x.Alike .lineStart q s s') :
    x.Parts .lineStart q (Repeat.sections s) (Repeat.sections s') :=
  h.sectionsFrom (.nil (.inl rfl) : x.Alike .lineStart .lineStart [] []) (by decide) fun _ => rfl

end Rewording
end AbcTune.Repeat
