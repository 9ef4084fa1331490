import AbcTune.Proofs.Repeat.Nesting
import AbcTune.Proofs.Text.Line

/-! # One section behind a header

Behind a header, a body in one voice is one section. Where it is one repeat of plain music, the
music is written twice if there is room for that.
-/
namespace AbcTune.Repeat

open Text

/-- Lines of which the last one is the first key line. -/
def IsHeader (t : Text) : Prop :=
  splitAtKey (lineBlocks t) = some (lineBlocks t,[]) ∧ t.getLast? = some '\n'

instance (t : Text) : Decidable (IsHeader t) :=
  inferInstanceAs (Decidable (splitAtKey (lineBlocks t) = some (lineBlocks t,[]) ∧
    t.getLast? = some '\n'))

theorem splitAtKey_append {lines head body : List Text} (h : splitAtKey lines = some (head,body))
    (more : List Text) : splitAtKey (lines ++ more) = some (head,body ++ more) := by
  induction lines generalizing head with
  | nil => cases h
  | cons line rest ih =>
    rw [splitAtKey] at h
    rw [List.cons_append, splitAtKey]
    split at h
    · next hkey =>
      obtain ⟨rfl,rfl⟩ := Prod.mk.inj (Option.some.inj h)
      exact if_pos hkey
    · next hkey =>
      obtain ⟨⟨head',body'⟩,hrest,hpair⟩ := Option.map_eq_some_iff.mp h
      obtain ⟨rfl,rfl⟩ := Prod.mk.inj hpair
      rw [if_neg hkey, ih hrest]
      rfl

theorem IsHeader.splitHeader {header : Text} (h : IsHeader header) (body : Text) :
    splitHeader (header ++ body) = (header,body) := by
  rw [Repeat.splitHeader, lineBlocks_append h.2, splitAtKey_append h.1]
  exact Prod.ext (flatten_lineBlocks header) (flatten_lineBlocks body)

/-- Nothing in a text starts a section but its start. -/
theorem sectionsFrom_of_notMem (done : List Text) (current : Text) (lineStart : Bool) {t : Text}
    (h : 'V' ∉ t) :
    sectionsFrom done current lineStart t =
      (if (t.reverse ++ current).isEmpty then done
        else (t.reverse ++ current).reverse :: done).reverse := by
  induction t generalizing current lineStart with
  | nil => rfl
  | cons c t ih =>
    have hstart : startsSection lineStart (c :: t) = false := by
      have hfirst : ['V', ':'].isPrefixOf (c :: t) = false := by
        rw [Bool.eq_false_iff]
        exact fun hmark => h ((isPrefixOf_mark.mp hmark).1 ▸ List.mem_cons_self)
      have hsecond : ['[', 'V', ':'].isPrefixOf (c :: t) = false := by
        rw [Bool.eq_false_iff]
        intro hmark
        exact h ((List.isPrefixOf_iff_prefix.mp hmark).subset (by decide))
      rw [startsSection, hfirst, hsecond, Bool.and_false]
      rfl
    rw [sectionsFrom, hstart]
    change sectionsFrom done (c :: current) _ t = _
    rw [ih _ _ fun ht => h (List.mem_cons_of_mem _ ht), List.reverse_cons, List.append_assoc]
    rfl

/-- A body in one voice is written out as one section. -/
theorem IsHeader.expand {header : Text} (h : IsHeader header) {body : Text} (hbody : 'V' ∉ body) :
    Repeat.expand (header ++ body) = (expandSection body).map (header ++ ·) := by
  have hsections : sections body = if body = [] then [] else [body] := by
    rw [sections, sectionsFrom_of_notMem _ _ _ hbody]
    cases body <;> simp
  rw [Repeat.expand, h.splitHeader]
  dsimp only
  rw [hsections]
  split
  · next hnil =>
    subst hnil
    rfl
  · rw [List.mapM_cons, List.mapM_nil]
    cases expandSection body with
    | error e => rfl
    | ok t =>
      change Except.ok (header ++ [t].flatten) = Except.ok (header ++ t)
      rw [List.flatten_singleton]

/-! ## One repeat -/

theorem expandSection_of_notMem {t : Text} (h : ':' ∉ t) : expandSection t = .ok t := by
  have hclosing : hasMark closing t = false := hasMark_eq_false_iff.mpr (freeOf_of_first_notMem h)
  have hopening : hasMark opening t = false := hasMark_eq_false_iff.mpr (freeOf_of_second_notMem h)
  have hdouble : hasMark double t = false := hasMark_eq_false_iff.mpr (freeOf_of_first_notMem h)
  rw [expandSection, hclosing, hopening, hdouble]
  rfl

/-- One repeat without endings is its content twice, or too long to be written out. -/
theorem expandSection_repeated {content : Text} (rest : Text) (hne : content ≠ [])
    (hcolon : ':' ∉ content) (hbar : content.head? ≠ some '|') (hrest : ':' ∉ rest)
    (hbracketOne : FreeOf '[' '1' content) (hbarOne : FreeOf '|' '1' content) :
    expandSection (opening ++ content ++ closing ++ rest) =
      if mostBytes < byteLength (content ++ content ++ rest) then .error .limit
      else .ok (content ++ content ++ rest) := by
  have hdoubles : splitDoubles (opening ++ content ++ closing ++ rest) =
      opening ++ content ++ closing ++ rest :=
    splitDoublesFrom_of_freeOf [] (((tidy_of_notMem hcolon).between hne).append
      (tidy_of_notMem hrest)).1
  have hcut : cutMark closing (opening ++ content ++ closing ++ rest) =
      some (opening ++ content,rest) :=
    cutMark_append (by decide) _ rest (settled_nil.freeOf_opening hcolon hbar)
  have hmark : hasMark closing (opening ++ content ++ closing ++ rest) = true := by
    rw [hasMark, hcut]
    rfl
  have hnext := writeOut_twice (opening ++ content ++ closing ++ rest) [] rest hcolon hbracketOne
    hbarOne
  rw [expandSection, hmark, hdoubles]
  change writeOutAll mostExpansions (opening ++ content ++ closing ++ rest) = _
  by_cases hsize : mostBytes < byteLength (content ++ content ++ rest)
  · rw [if_pos hsize, mostExpansions, writeOutAll, hcut]
    dsimp only
    change (writeOut _ ([] ++ opening ++ content) rest >>= _) = _
    rw [hnext]
    exact if_pos hsize
  · rw [if_neg hsize]
    have hwritten := writeOutAll_closing 63 settled_nil hcolon hbar hnext (Nat.not_lt.mp hsize)
    refine hwritten.trans (writeOutAll_of_notMem 62 ?_)
    simp [hcolon, hrest]

end AbcTune.Repeat
