import AbcTune.Proofs.Repeat.RewordedLines

/-! # Repeats of alike texts

The repeats of alike texts are written out in the same steps. A text can become too long where an
alike text does not, so this is for texts that have room. And a comment must not be what a repeat
starts with that has no opening mark: it would come to stand behind other text of a line.
-/
namespace AbcTune.Repeat

open Text

/-! ## The texts on the way -/

/-- The texts that a text becomes while its repeats are written out, itself first, however long. -/
def stages : (fuel : Nat) → Text → List Text
  | 0, t => [t]
  | fuel + 1, t =>
    t :: match cutMark closing t with
      | none => []
      | some (before, after) =>
        match writeOut t before after with
        | .error _ => []
        | .ok next => stages fuel next

/-- Whether no text that a section becomes is too long. -/
def hasRoom (t : Text) : Bool :=
  (stages mostExpansions (splitDoubles t)).tail.all fun u => byteLength u ≤ mostBytes

/-- Whether there is room for all sections, through the first that cannot be written out. -/
def haveRoom : List Text → Bool
  | [] => true
  | t :: rest => hasRoom t && match expandSection t with
    | .ok _ => haveRoom rest
    | .error _ => true

/-- No text that occurs while the repeats of a text are written out is too long. -/
def HasRoom (t : Text) : Prop := haveRoom (sections (splitHeader t).2) = true

instance (t : Text) : Decidable (HasRoom t) := inferInstanceAs (Decidable (_ = true))

/-- Whether the repeat that ends at the first closing mark has no opening mark and starts with a
comment. -/
def repeatsRemark (a t : Text) : Bool :=
  match cutMark closing t with
  | none => false
  | some (before, _) =>
    (cutLastMark opening before).isNone &&
      (t.drop (musicStart t)).takeWhile (· != '\n') == '%' :: a

/-- No repeat without an opening mark ever starts with the comment. -/
def StaysClear (a t : Text) : Prop :=
  ∀ s ∈ sections (splitHeader t).2, ∀ u ∈ stages mostExpansions (splitDoubles s),
    repeatsRemark a u = false

instance (a t : Text) : Decidable (StaysClear a t) :=
  inferInstanceAs (Decidable (∀ s ∈ _, ∀ u ∈ _, _ = false))

theorem stages_next {fuel : Nat} {t before after next : Text}
    (h : cutMark closing t = some (before,after)) (hnext : writeOut t before after = .ok next) :
    stages (fuel + 1) t = t :: stages fuel next := by
  simp only [stages, h, hnext]

theorem mem_stages (fuel : Nat) (t : Text) : t ∈ stages fuel t := by
  cases fuel <;> exact List.mem_cons_self

namespace Rewording

variable {x : Rewording} {p q r : Place} {s s' t t' u u' : Text} {a b c : Char}

/-- Results that are alike: the same failure, or alike texts. -/
inductive Results (x : Rewording) (p q : Place) : Except Failure Text → Except Failure Text → Prop
    where
  | error (e : Failure) : x.Results p q (.error e) (.error e)
  | ok {s s' : Text} (h : x.Alike p q s s') : x.Results p q (.ok s) (.ok s')

namespace Alike

/-! ## Endings -/

theorem splitFirstEnding (h : x.Alike p .inLine s s') :
    (Repeat.splitFirstEnding s = (s,none) ∧ Repeat.splitFirstEnding s' = (s',none)) ∨
      ∃ main main' first first', Repeat.splitFirstEnding s = (main,some first) ∧
        Repeat.splitFirstEnding s' = (main',some first') ∧ x.Alike p .inLine main main' ∧
        x.Alike .inLine .inLine first first' := by
  have hbracket : ['[', '1'] ∈ marks := by decide
  have hbar : ['|', '1'] ∈ marks := by decide
  unfold Repeat.splitFirstEnding
  cases hcut : Text.cutMark ['[', '1'] s with
  | some parts =>
    obtain ⟨main',first',hcut',hmain,hfirst⟩ := h.cutMark hbracket (by decide) hcut
    rw [hcut']
    exact .inr ⟨_,_,_,_,rfl,rfl,hmain,hfirst⟩
  | none =>
    rw [h.cutMark_none hbracket hcut]
    cases hcut : Text.cutMark ['|', '1'] s with
    | some parts =>
      obtain ⟨main',first',hcut',hmain,hfirst⟩ := h.cutMark hbar (by decide) hcut
      rw [hcut']
      exact .inr ⟨_,_,_,_,rfl,rfl,hmain.append (solid (by decide) (by simp [Solid])),hfirst⟩
    | none =>
      rw [h.cutMark_none hbar hcut]
      exact .inl ⟨rfl,rfl⟩

theorem dropWhile_blank (h : x.Alike .inLine q s s') :
    x.Alike .inLine q (s.dropWhile (· = ' ')) (s'.dropWhile (· = ' ')) := by
  have hblank : Solid ' ' := by decide
  have hstay {t : Text} (ht : t.head? ≠ some ' ') : t.dropWhile (· = ' ') = t := by
    cases t with
    | nil => rfl
    | cons c t =>
      have hc : ¬c = ' ' := fun hc => ht (congrArg some hc)
      simp [hc]
  induction s generalizing s' with
  | nil =>
    obtain rfl := h.eq_nil_iff.mp rfl
    exact h
  | cons c s ih =>
    by_cases hc : c = ' '
    · subst hc
      obtain ⟨t',rfl,hnext⟩ := h.of_cons hblank
      rw [List.dropWhile_cons_of_pos (by simp), List.dropWhile_cons_of_pos (by simp)]
      exact ih hnext
    · have hhead : (c :: s).head? ≠ some ' ' := fun h => hc (Option.some.inj h)
      rw [hstay hhead, hstay (mt (h.head?_iff hblank).mpr hhead)]
      exact h

theorem drop_mark (h : x.Alike .inLine q s s') {mark : Text} (hmark : ∀ c ∈ mark, Solid c)
    (hstarts : mark.isPrefixOf s = true) :
    x.Alike .inLine q (s.drop mark.length) (s'.drop mark.length) := by
  obtain ⟨t,rfl⟩ := List.isPrefixOf_iff_prefix.mp hstarts
  obtain ⟨t',rfl,hnext⟩ := h.of_append hmark
  rw [List.drop_left, List.drop_left]
  exact hnext

theorem dropSecondEnding (h : x.Alike .inLine q s s') :
    x.Alike .inLine q (Repeat.dropSecondEnding s) (Repeat.dropSecondEnding s') := by
  have hdrop (t : Text) : Repeat.dropSecondEnding t =
      if ['[', '2'].isPrefixOf t then t.drop ['[', '2'].length
      else if ['2'].isPrefixOf t then t.drop ['2'].length
      else if ['[', '2'].isPrefixOf (t.dropWhile (· = ' ')) then
        (t.dropWhile (· = ' ')).drop ['[', '2'].length
      else t := by
    unfold Repeat.dropSecondEnding
    split
    · rfl
    · rfl
    · next hfirst hsecond =>
      have hfirst : ['[', '2'].isPrefixOf t = false := by
        rw [Bool.eq_false_iff]
        intro h
        obtain ⟨u,rfl⟩ := List.isPrefixOf_iff_prefix.mp h
        exact hfirst u rfl
      have hsecond : ['2'].isPrefixOf t = false := by
        rw [Bool.eq_false_iff]
        intro h
        obtain ⟨u,rfl⟩ := List.isPrefixOf_iff_prefix.mp h
        exact hsecond u rfl
      rw [hfirst, hsecond, Text.dropMark?]
      split <;> rfl
  have hsolid : ∀ c ∈ ['[', '2'], Solid c := by simp [Solid]
  have hsolid' : ∀ c ∈ ['2'], Solid c := by simp [Solid]
  rw [hdrop, hdrop, ← h.isPrefixOf_eq hsolid, ← h.isPrefixOf_eq hsolid',
    ← h.dropWhile_blank.isPrefixOf_eq hsolid]
  split
  · next hstarts => exact h.drop_mark hsolid hstarts
  · split
    · next hstarts => exact h.drop_mark hsolid' hstarts
    · split
      · next hstarts => exact h.dropWhile_blank.drop_mark hsolid hstarts
      · exact h

/-! ## One closing mark -/

/-- Text in front of a mark that does not start with a comment can follow other text. -/
theorem of_lineStart (h : x.Alike .lineStart .inLine s s')
    (hs : ∀ a b, x.remark a b → ∀ rest, s ≠ '%' :: a ++ '\n' :: rest) :
    x.Alike .inLine .inLine s s' := by
  cases h with
  | nil => exact .nil (.inl rfl)
  | char _ hc h => exact .char (by decide) hc h
  | lineEnd h => exact .lineEnd h
  | remark hab h =>
    cases h with
    | nil hopens => rcases hopens with h | ⟨h,-⟩ <;> cases h
    | char hp => exact absurd rfl hp
    | lineEnd => exact absurd rfl (hs _ _ hab _)

/-- The repeated part of alike texts: the music starts behind the mark in both, or there are alike
parts. -/
theorem repeatedPart (h : x.Alike p .inLine s s') (hp : p ≠ .behindRemark)
    (ht : x.Alike .inLine q t t')
    (hcut : Text.cutMark closing (s ++ closing ++ t) = some (s,t))
    (hclear : ∀ a b, x.remark a b → repeatsRemark a (s ++ closing ++ t) = false) :
    (Repeat.repeatedPart (s ++ closing ++ t) s = .error .startAfterEnd ∧
        Repeat.repeatedPart (s' ++ closing ++ t') s' = .error .startAfterEnd) ∨
      ∃ lead lead' content content',
        Repeat.repeatedPart (s ++ closing ++ t) s = .ok (lead,content) ∧
        Repeat.repeatedPart (s' ++ closing ++ t') s' = .ok (lead',content') ∧
        x.Alike p .inLine lead lead' ∧ x.Alike .inLine .inLine content content' := by
  have hopening : opening ∈ marks := by decide
  unfold Repeat.repeatedPart
  cases hlast : Text.cutLastMark opening s with
  | some parts =>
    obtain ⟨lead',content',hlast',hlead,hcontent⟩ := h.cutLastMark hopening (by decide) hlast
    have hlast' : Text.cutLastMark opening s' = some (lead',content') := hlast'
    rw [hlast']
    exact .inr ⟨_,_,_,_,rfl,rfl,hlead,hcontent⟩
  | none =>
    have hlast' : Text.cutLastMark opening s' = none := h.cutLastMark_none hopening hlast
    have hmark : x.Alike .inLine q (closing ++ t) (closing ++ t') :=
      (solid (by decide) (by simp [closing, Solid])).append ht
    rw [hlast']
    dsimp only
    have hmusic := h.musicStart hp hmark (c := ':') (by decide) rfl
    rw [← List.append_assoc, ← List.append_assoc] at hmusic
    rcases hmusic with
      ⟨hlt,hlt'⟩ | ⟨lead,lead',content,content',rfl,rfl,hstart,hstart',hlead,hcontent⟩
    · rw [if_neg (Nat.not_le.mpr hlt), if_neg (Nat.not_le.mpr hlt')]
      exact .inl ⟨rfl,rfl⟩
    · rw [hstart, hstart', if_pos (by simp), if_pos (by simp), List.take_left, List.take_left,
        List.drop_left, List.drop_left]
      refine .inr ⟨lead,lead',content,content',rfl,rfl,hlead,hcontent.of_lineStart ?_⟩
      rintro a b hab rest rfl
      have hline : ∀ c ∈ '%' :: a, (c != '\n') = true := by
        intro c hc
        rw [bne_iff_ne]
        rintro rfl
        simp [(x.quiet hab).1.noFeed] at hc
      have hnot := hclear a b hab
      rw [repeatsRemark, hcut] at hnot
      dsimp only at hnot
      rw [hlast, hstart, List.append_assoc, List.append_assoc, List.drop_left, List.append_assoc,
        List.takeWhile_append_of_pos hline] at hnot
      simp at hnot

/-- Where a repeat is written out, it is so in alike texts. -/
theorem writeOut (h : x.Alike p .inLine s s') (hp : p ≠ .behindRemark)
    (ht : x.Alike .inLine q t t')
    (hcut : Text.cutMark closing (s ++ closing ++ t) = some (s,t))
    (hclear : ∀ a b, x.remark a b → repeatsRemark a (s ++ closing ++ t) = false) :
    x.Results p q (Repeat.writeOut (s ++ closing ++ t) s t)
      (Repeat.writeOut (s' ++ closing ++ t') s' t') := by
  unfold Repeat.writeOut
  rcases h.repeatedPart hp ht hcut hclear with
    ⟨hfail,hfail'⟩ | ⟨lead,lead',content,content',hpart,hpart',hlead,hcontent⟩
  · rw [hfail, hfail']
    exact .error _
  · rw [hpart, hpart', ok_bind, ok_bind]
    dsimp only
    rcases hcontent.splitFirstEnding with
      ⟨hnone,hnone'⟩ | ⟨main,main',first,first',hsome,hsome',hmain,hfirst⟩
    · rw [hnone, hnone']
      exact .ok (hlead.append (hcontent.append (hcontent.append ht)))
    · rw [hsome, hsome']
      exact .ok (hlead.append (hmain.append (hfirst.append (hmain.append ht.dropSecondEnding))))

/-! ## Sections and whole texts -/

theorem writeOutAll (fuel : Nat) (h : x.Alike p q s s') (hp : p ≠ .behindRemark)
    (hroom : ∀ u ∈ (stages fuel s).tail, byteLength u ≤ mostBytes)
    (hroom' : ∀ u ∈ (stages fuel s').tail, byteLength u ≤ mostBytes)
    (hclear : ∀ u ∈ stages fuel s, ∀ a b, x.remark a b → repeatsRemark a u = false) :
    x.Results p q (Repeat.writeOutAll fuel s) (Repeat.writeOutAll fuel s') := by
  have hclosing : closing ∈ marks := by decide
  induction fuel generalizing s s' with
  | zero => exact .error _
  | succ fuel ih =>
    unfold Repeat.writeOutAll
    cases hcut : Text.cutMark closing s with
    | none =>
      have hcut' : Text.cutMark closing s' = none := h.cutMark_none hclosing hcut
      rw [hcut']
      exact .ok (h.replacePair (by decide) (by simp [Solid]))
    | some parts =>
      obtain ⟨before,after⟩ := parts
      obtain ⟨before',after',hcut',hbefore,hafter⟩ := h.cutMark hclosing (by decide) hcut
      have hcut' : Text.cutMark closing s' = some (before',after') := hcut'
      have hs : s = before ++ closing ++ after := ((cutMark_eq_some_iff (by decide)).mp hcut).1
      have hs' : s' = before' ++ closing ++ after' := ((cutMark_eq_some_iff (by decide)).mp hcut').1
      have hwritten : x.Results p q (Repeat.writeOut s before after)
          (Repeat.writeOut s' before' after') := by
        rw [hs, hs']
        refine hbefore.writeOut hp hafter (hs ▸ hcut) fun a b hab => ?_
        exact hs ▸ hclear s (mem_stages _ _) a b hab
      rw [hcut']
      dsimp only
      generalize hnext : Repeat.writeOut s before after = result at hwritten
      generalize hnext' : Repeat.writeOut s' before' after' = result' at hwritten
      cases hwritten with
      | error e => exact .error e
      | @ok next next' halike =>
        rw [stages_next hcut hnext, List.tail_cons] at hroom
        rw [stages_next hcut' hnext', List.tail_cons] at hroom'
        rw [stages_next hcut hnext] at hclear
        rw [ok_bind, ok_bind, if_neg (Nat.not_lt.mpr (hroom next (mem_stages _ _))),
          if_neg (Nat.not_lt.mpr (hroom' next' (mem_stages _ _)))]
        exact ih halike (fun u hu => hroom u (List.mem_of_mem_tail hu))
          (fun u hu => hroom' u (List.mem_of_mem_tail hu))
          fun u hu => hclear u (List.mem_cons_of_mem _ hu)

theorem expandSection (h : x.Alike p q s s') (hp : p ≠ .behindRemark) (hroom : hasRoom s = true)
    (hroom' : hasRoom s' = true)
    (hclear : ∀ u ∈ stages mostExpansions (Repeat.splitDoubles s), ∀ a b, x.remark a b →
      repeatsRemark a u = false) :
    x.Results p q (Repeat.expandSection s) (Repeat.expandSection s') := by
  have hsmall {t : Text} (ht : hasRoom t = true) :
      ∀ u ∈ (stages mostExpansions (Repeat.splitDoubles t)).tail, byteLength u ≤ mostBytes :=
    fun u hu => of_decide_eq_true (List.all_eq_true.mp ht u hu)
  have hmarks : (hasMark closing s || hasMark opening s || hasMark double s) =
      (hasMark closing s' || hasMark opening s' || hasMark double s') := by
    rw [closing, opening, double, h.hasMark_eq (by decide), h.hasMark_eq (by decide),
      h.hasMark_eq (by decide)]
  unfold Repeat.expandSection
  rw [hmarks]
  split
  · exact h.splitDoubles.writeOutAll mostExpansions hp (hsmall hroom) (hsmall hroom') hclear
  · exact .ok h

end Alike

/-- Alike texts in front of sections that are written out. -/
theorem Results.before {others others' : Except Failure (List Text)}
    (h : x.Results r q (others.map List.flatten) (others'.map List.flatten))
    (hs : x.Alike p r s s') :
    x.Results p q ((others.bind fun rest => pure (s :: rest)).map List.flatten)
      ((others'.bind fun rest => pure (s' :: rest)).map List.flatten) := by
  cases others with
  | error e =>
    cases others' with
    | error e' =>
      cases h
      exact .error e
    | ok => cases h
  | ok rest =>
    cases others' with
    | error => cases h
    | ok rest' =>
      cases h with
      | ok hrest => exact .ok (hs.append hrest)

theorem Parts.mapM {ss ss' : List Text} (h : x.Parts p q ss ss') (hroom : haveRoom ss = true)
    (hroom' : haveRoom ss' = true)
    (hclear : ∀ s ∈ ss, ∀ u ∈ stages mostExpansions (Repeat.splitDoubles s), ∀ a b, x.remark a b →
      repeatsRemark a u = false) :
    x.Results p q ((ss.mapM expandSection).map List.flatten)
      ((ss'.mapM expandSection).map List.flatten) := by
  induction h with
  | nil hopens => exact .ok (.nil hopens)
  | @cons p q r s s' rest rest' hp h hrest ih =>
    rw [haveRoom, Bool.and_eq_true] at hroom hroom'
    have hone := h.expandSection hp hroom.1 hroom'.1 (hclear s List.mem_cons_self)
    rw [List.mapM_cons, List.mapM_cons]
    generalize Repeat.expandSection s = result at hone hroom
    generalize Repeat.expandSection s' = result' at hone hroom'
    cases hone with
    | error e => exact .error e
    | @ok written written' halike =>
      have hothers := ih hroom.2 hroom'.2 fun s hs => hclear s (List.mem_cons_of_mem _ hs)
      rw [ok_bind, ok_bind]
      exact hothers.before halike

/-- Alike texts that have room are written out as alike texts. -/
theorem Alike.expand (h : x.Alike .lineStart q s s') (hroom : HasRoom s) (hroom' : HasRoom s')
    (hclear : ∀ a b, x.remark a b → StaysClear a s) :
    x.Results .lineStart q (Repeat.expand s) (Repeat.expand s') := by
  have hexpand (t : Text) : Repeat.expand t =
      (((Repeat.sections (splitHeader t).2).mapM Repeat.expandSection).map List.flatten).map
        ((splitHeader t).1 ++ ·) := by
    unfold Repeat.expand
    dsimp only
    cases (Repeat.sections (splitHeader t).2).mapM Repeat.expandSection <;> rfl
  have hparts {r : Place} {head head' body body' : Text} (hhead : x.Alike .lineStart r head head')
      (hbody : x.Parts r q (Repeat.sections body) (Repeat.sections body'))
      (hs : splitHeader s = (head,body)) (hs' : splitHeader s' = (head',body')) :
      x.Results .lineStart q (Repeat.expand s) (Repeat.expand s') := by
    have hmap := hbody.mapM (by simpa [HasRoom, hs] using hroom)
      (by simpa [HasRoom, hs'] using hroom')
      fun t ht u hu a b hab => hclear a b hab t (by simpa [hs] using ht) u hu
    rw [hexpand, hexpand, hs, hs']
    generalize ((Repeat.sections body).mapM Repeat.expandSection).map List.flatten = result at hmap
    generalize ((Repeat.sections body').mapM Repeat.expandSection).map List.flatten = result'
      at hmap
    cases hmap with
    | error e => exact .error e
    | ok hbody => exact .ok (hhead.append hbody)
  rcases h.blocks.splitAtKey with
    ⟨hnone,hnone'⟩ | ⟨r,head,head',body,body',hsplit,hsplit',hhead,hbody,hplace⟩
  · exact hparts (.nil (.inl rfl)) h.sections (by rw [splitHeader, hnone])
      (by rw [splitHeader, hnone'])
  · refine hparts hhead ?_ (by rw [splitHeader, hsplit]) (by rw [splitHeader, hsplit'])
    rcases hplace with rfl | ⟨rfl,rfl⟩
    · exact hbody.sections
    · cases hbody with
      | nil hopens => exact .nil hopens

end Rewording
end AbcTune.Repeat
