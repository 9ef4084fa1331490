import AbcTune.Text.Cut

/-! # Lines of a text

A text that ends in a line feed is divided into lines by itself, whatever is written behind it.
-/
namespace AbcTune.Text

variable {s t : Text}

theorem lineBlocksFrom_eq (done : List Text) (current t : Text) :
    lineBlocksFrom done current t = done.reverse ++ lineBlocksFrom [] current t := by
  induction t generalizing done current with
  | nil =>
    unfold lineBlocksFrom
    split <;> simp
  | cons c t ih =>
    unfold lineBlocksFrom
    split
    · rw [ih, ih [_]]
      simp
    · exact ih done (c :: current)

theorem flatten_lineBlocksFrom (current t : Text) :
    (lineBlocksFrom [] current t).flatten = current.reverse ++ t := by
  induction t generalizing current with
  | nil =>
    unfold lineBlocksFrom
    cases current <;> simp
  | cons c t ih =>
    unfold lineBlocksFrom
    split
    · rw [lineBlocksFrom_eq, List.flatten_append, ih]
      simp
    · rw [ih]
      simp

theorem flatten_lineBlocks (t : Text) : (lineBlocks t).flatten = t := flatten_lineBlocksFrom [] t

theorem lineBlocksFrom_append (current : Text) (h : s.getLast? = some '\n') (t : Text) :
    lineBlocksFrom [] current (s ++ t) = lineBlocksFrom [] current s ++ lineBlocks t := by
  induction s generalizing current with
  | nil => cases h
  | cons c s ih =>
    rw [List.cons_append, lineBlocksFrom, lineBlocksFrom]
    cases s with
    | nil =>
      have hc : c = '\n' := Option.some.inj h
      rw [if_pos hc, if_pos hc, List.nil_append, lineBlocksFrom_eq]
      rfl
    | cons d s =>
      have hlast : (d :: s).getLast? = some '\n' := by rwa [List.getLast?_cons_cons] at h
      split
      · rw [lineBlocksFrom_eq, ih [] hlast, lineBlocksFrom_eq [_] [] (d :: s), List.append_assoc]
      · exact ih (c :: current) hlast

theorem lineBlocks_append (h : s.getLast? = some '\n') (t : Text) :
    lineBlocks (s ++ t) = lineBlocks s ++ lineBlocks t :=
  lineBlocksFrom_append [] h t

theorem lines_append (h : s.getLast? = some '\n') (t : Text) :
    lines (s ++ t) = lines s ++ lines t := by
  rw [lines, lineBlocks_append h, List.map_append]
  rfl

/-! ## One line -/

/-- What may stand behind the last line. -/
def lineEnds : List Text := [[], ['\n'], ['\r', '\n']]

theorem isBlank_of_mem_lineEnds {e : Text} (he : e ∈ lineEnds) : ∀ c ∈ e, isBlank c = true := by
  have hall : ∀ e ∈ lineEnds, e.all isBlank = true := by decide
  exact List.all_eq_true.mp (hall e he)

/-- A line is divided into itself and what ends it. -/
theorem exists_lineEnd (line : Text) : ∃ e ∈ lineEnds, line = dropLineEnd line ++ e := by
  unfold dropLineEnd
  split
  · next rest hrest =>
    refine ⟨_,List.mem_cons_of_mem _ (List.mem_cons_of_mem _ List.mem_cons_self),?_⟩
    rw [← List.reverse_reverse line, hrest]
    simp
  · next rest _ hrest =>
    refine ⟨_,List.mem_cons_of_mem _ List.mem_cons_self,?_⟩
    rw [← List.reverse_reverse line, hrest]
    simp
  · exact ⟨[],List.mem_cons_self,(List.append_nil _).symm⟩

theorem dropLineEnd_append (hfeed : '\n' ∉ t) (hreturn : '\r' ∉ t) {e : Text} (he : e ∈ lineEnds) :
    dropLineEnd (t ++ e) = t := by
  have hfeed : '\n' ∉ t.reverse := fun h => hfeed (List.mem_reverse.mp h)
  have hreturn : '\r' ∉ t.reverse := fun h => hreturn (List.mem_reverse.mp h)
  unfold dropLineEnd
  simp only [lineEnds, List.mem_cons, List.not_mem_nil, or_false] at he
  rcases he with rfl | rfl | rfl
  · rw [List.append_nil]
    split
    · next h => exact absurd (h ▸ List.mem_cons_self) hfeed
    · next h => exact absurd (h ▸ List.mem_cons_self) hfeed
    · rfl
  · have hline : (t ++ ['\n']).reverse = '\n' :: t.reverse := List.reverse_append
    rw [hline]
    split
    · next h => exact absurd ((List.cons.inj h).2 ▸ List.mem_cons_self) hreturn
    · next h => rw [← (List.cons.inj h).2, List.reverse_reverse]
    · next h => exact absurd rfl (h t.reverse)
  · rw [List.reverse_append]
    exact List.reverse_reverse t

theorem lineBlocksFrom_of_notMem (current : Text) (h : '\n' ∉ t) (hne : current ≠ [] ∨ t ≠ []) :
    lineBlocksFrom [] current t = [current.reverse ++ t] := by
  induction t generalizing current with
  | nil =>
    have hcurrent : current ≠ [] := by simpa using hne
    simp [lineBlocksFrom, hcurrent]
  | cons c t ih =>
    have hc : ¬c = '\n' := fun hc => h (hc ▸ List.mem_cons_self)
    rw [lineBlocksFrom, if_neg hc, ih (c :: current) (fun ht => h (List.mem_cons_of_mem _ ht))
      (.inl (List.cons_ne_nil _ _))]
    simp

theorem lineBlocksFrom_lineFeed (current : Text) (h : '\n' ∉ t) :
    lineBlocksFrom [] current (t ++ ['\n']) = [current.reverse ++ t ++ ['\n']] := by
  induction t generalizing current with
  | nil => simp [lineBlocksFrom]
  | cons c t ih =>
    have hc : ¬c = '\n' := fun hc => h (hc ▸ List.mem_cons_self)
    rw [List.cons_append, lineBlocksFrom, if_neg hc,
      ih (c :: current) fun ht => h (List.mem_cons_of_mem _ ht)]
    simp

theorem lineBlocks_line (hfeed : '\n' ∉ s) (rest : Text) :
    lineBlocks (s ++ '\n' :: rest) = (s ++ ['\n']) :: lineBlocks rest := by
  have hlast : (s ++ ['\n']).getLast? = some '\n' := List.getLast?_concat
  have hblock : lineBlocks (s ++ ['\n']) = [s ++ ['\n']] := lineBlocksFrom_lineFeed [] hfeed
  rw [List.append_cons, lineBlocks_append hlast, hblock]
  rfl

theorem lines_line (hfeed : '\n' ∉ t) (hreturn : '\r' ∉ t) {e : Text} (he : e ∈ lineEnds) :
    lines (t ++ e) = if t ++ e = [] then [] else [t] := by
  have hblocks : lineBlocks (t ++ e) = if t ++ e = [] then [] else [t ++ e] := by
    split
    · next h => rw [h]; rfl
    · next hne =>
      simp only [lineEnds, List.mem_cons, List.not_mem_nil, or_false] at he
      rcases he with rfl | rfl | rfl
      · rw [List.append_nil] at hne ⊢
        exact lineBlocksFrom_of_notMem [] hfeed (.inr hne)
      · exact lineBlocksFrom_lineFeed [] hfeed
      · have hline : '\n' ∉ t ++ ['\r'] := by simpa using hfeed
        have hblock := lineBlocksFrom_lineFeed [] hline
        rw [List.reverse_nil, List.nil_append, List.append_assoc] at hblock
        exact hblock
  rw [lines, hblocks]
  split
  · rfl
  · rw [List.map_singleton, dropLineEnd_append hfeed hreturn he]

theorem isBlankLine_dropLineEnd (line : Text) :
    isBlankLine (dropLineEnd line) = isBlankLine line := by
  obtain ⟨e,he,hline⟩ := exists_lineEnd line
  have hblank : e.all isBlank = true := by
    simp only [lineEnds, List.mem_cons, List.not_mem_nil, or_false] at he
    rcases he with rfl | rfl | rfl <;> decide
  calc (dropLineEnd line).all isBlank
      = (dropLineEnd line ++ e).all isBlank := by rw [List.all_append, hblank, Bool.and_true]
    _ = line.all isBlank := by rw [← hline]

theorem lineFeed_notMem_of_mem_lineBlocksFrom {current : Text} (hcurrent : '\n' ∉ current)
    (t : Text) : ∀ line ∈ lineBlocksFrom [] current t,
      ∃ front, '\n' ∉ front ∧ (line = front ∨ line = front ++ ['\n']) := by
  induction t generalizing current with
  | nil =>
    intro line hline
    rw [lineBlocksFrom] at hline
    split at hline
    · cases hline
    · rw [List.reverse_singleton, List.mem_singleton] at hline
      exact ⟨current.reverse,by simpa using hcurrent,.inl hline⟩
  | cons c t ih =>
    rw [lineBlocksFrom]
    split
    · next hc =>
      rw [lineBlocksFrom_eq]
      intro line hline
      rcases List.mem_append.mp hline with hline | hline
      · rw [List.reverse_singleton, List.mem_singleton] at hline
        exact ⟨current.reverse,by simpa using hcurrent,.inr (by simp [hline, hc])⟩
      · exact ih List.not_mem_nil line hline
    · next hc => exact ih fun h => (List.mem_cons.mp h).elim (fun heq => hc heq.symm) hcurrent

theorem dropLineEnd_lineFeed_subset (front : Text) : dropLineEnd (front ++ ['\n']) ⊆ front := by
  have hreverse : (front ++ ['\n']).reverse = '\n' :: front.reverse := by simp
  intro c hc
  rw [dropLineEnd] at hc
  split at hc
  · next rest hrest =>
    have hfront := (List.cons.inj (hreverse.symm.trans hrest)).2
    have hmem : c ∈ front.reverse := hfront ▸ List.mem_cons_of_mem _ (List.mem_reverse.mp hc)
    exact List.mem_reverse.mp hmem
  · next rest _ hrest =>
    rwa [← (List.cons.inj (hreverse.symm.trans hrest)).2, List.reverse_reverse] at hc
  · next hother => exact absurd hreverse (hother front.reverse)

/-- No line feed stands in a line. -/
theorem lineFeed_notMem_of_mem_lines (t : Text) {line : Text} (h : line ∈ lines t) :
    '\n' ∉ line := by
  obtain ⟨block,hblock,rfl⟩ := List.mem_map.mp h
  obtain ⟨front,hfront,rfl | rfl⟩ :=
    lineFeed_notMem_of_mem_lineBlocksFrom List.not_mem_nil t block hblock
  · obtain ⟨e,-,hline⟩ := exists_lineEnd block
    exact fun hfeed => hfront (hline ▸ List.mem_append_left e hfeed)
  · exact fun hfeed => hfront (dropLineEnd_lineFeed_subset front hfeed)

/-! ## The line of a mark -/

theorem lineBlocksFrom_eq_cons {current : Text} (hne : current ≠ []) (t : Text) :
    ∃ rest lines, lineBlocksFrom [] current t = (current.reverse ++ rest) :: lines := by
  induction t generalizing current with
  | nil => exact ⟨[],[],by simp [lineBlocksFrom, hne]⟩
  | cons c t ih =>
    rw [lineBlocksFrom]
    split
    · exact ⟨[c],lineBlocksFrom [] [] t,by rw [lineBlocksFrom_eq]; simp⟩
    · obtain ⟨rest,lines,h⟩ := ih (List.cons_ne_nil c current)
      exact ⟨c :: rest,lines,by rw [h]; simp⟩

theorem lineBlocksFrom_append_of_notMem (current t : Text) (h : '\n' ∉ s) :
    lineBlocksFrom [] current (s ++ t) = lineBlocksFrom [] (s.reverse ++ current) t := by
  induction s generalizing current with
  | nil => rfl
  | cons c s ih =>
    have hc : ¬c = '\n' := fun hc => h (hc ▸ List.mem_cons_self)
    rw [List.cons_append, lineBlocksFrom, if_neg hc, ih _ fun hs => h (List.mem_cons_of_mem _ hs)]
    simp

theorem lineBlocksFrom_mark {mark : Text} (hne : mark ≠ []) (hfeed : '\n' ∉ mark)
    (current before after : Text) :
    ∃ lead front back rest,
      lineBlocksFrom [] current (before ++ mark ++ after) =
        lead ++ (front ++ mark ++ back) :: rest ∧
      current.reverse ++ before = lead.flatten ++ front := by
  induction before generalizing current with
  | nil =>
    have hcurrent : mark.reverse ++ current ≠ [] := by simp [hne]
    obtain ⟨back,rest,h⟩ := lineBlocksFrom_eq_cons hcurrent after
    refine ⟨[],current.reverse,back,rest,?_,by simp⟩
    rw [List.nil_append, lineBlocksFrom_append_of_notMem _ _ hfeed, h]
    simp
  | cons c before ih =>
    rw [List.cons_append, List.cons_append, lineBlocksFrom]
    split
    · obtain ⟨lead,front,back,rest,hlines,hbefore⟩ := ih []
      refine ⟨(c :: current).reverse :: lead,front,back,rest,?_,?_⟩
      · rw [lineBlocksFrom_eq, hlines]
        rfl
      · rw [List.flatten_cons, List.append_assoc, ← hbefore]
        simp
    · obtain ⟨lead,front,back,rest,hlines,hbefore⟩ := ih (c :: current)
      exact ⟨lead,front,back,rest,hlines,by rw [← hbefore]; simp⟩

/-- A mark without line feeds stands in one line. -/
theorem lineBlocks_mark {mark : Text} (hne : mark ≠ []) (hfeed : '\n' ∉ mark)
    (before after : Text) :
    ∃ lead front back rest,
      lineBlocks (before ++ mark ++ after) = lead ++ (front ++ mark ++ back) :: rest ∧
      before = lead.flatten ++ front :=
  lineBlocksFrom_mark hne hfeed [] before after

/-! ## Line feeds -/

theorem length_lineBlocksFrom_lineFeed (current t : Text) :
    (lineBlocksFrom [] current (t ++ ['\n'])).length = t.count '\n' + 1 := by
  induction t generalizing current with
  | nil => rfl
  | cons c t ih =>
    rw [List.cons_append, lineBlocksFrom, List.count_cons]
    by_cases hc : c = '\n'
    · rw [if_pos hc, lineBlocksFrom_eq, List.length_append, ih, if_pos (beq_iff_eq.mpr hc),
        List.length_reverse, List.length_singleton]
      omega
    · rw [if_neg hc, ih]
      simp [hc]

/-- Sent with a line feed behind it, a text is one line more than it has line feeds. -/
theorem length_lines_lineFeed (t : Text) : (lines (t ++ ['\n'])).length = t.count '\n' + 1 := by
  rw [lines, List.length_map]
  exact length_lineBlocksFrom_lineFeed [] t

theorem lines_lineFeed (h : '\n' ∉ t) : lines (t ++ ['\n']) = [dropLineEnd (t ++ ['\n'])] := by
  rw [lines, lineBlocks, lineBlocksFrom_lineFeed [] h]
  rfl

/-- A text that is not blank has a line that is not. -/
theorem exists_mem_lines_of_not_blank (h : isBlankLine t = false) :
    ∃ line ∈ lines t, isBlankLine line = false := by
  rw [← flatten_lineBlocks t] at h
  obtain ⟨c,hc,hblank⟩ := List.all_eq_false.mp h
  obtain ⟨block,hblock,hc⟩ := List.mem_flatten.mp hc
  refine ⟨dropLineEnd block,List.mem_map_of_mem hblock,?_⟩
  rw [isBlankLine_dropLineEnd]
  exact List.all_eq_false.mpr ⟨c,hc,hblank⟩

end AbcTune.Text
