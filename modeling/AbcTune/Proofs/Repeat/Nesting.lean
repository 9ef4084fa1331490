import AbcTune.Proofs.Text.Mark
import AbcTune.Repeat

/-! # The meaning of nested repeats

A passage is music in which repeats and pairs of endings are properly nested. It has a written form
with marks and a meaning without them. The expansion works on the text alone, always at the first
closing mark, and yet it replaces the written form by the meaning: what stands before the passage
being treated never holds a closing mark, so the first one belongs to its innermost repeat.
-/
namespace AbcTune.Repeat
open Text

/-- Music without marks. It holds no colon and no number of a first ending, and starts with no bar
line, which an opening mark before it would take for its own end. -/
structure Chunk where
  text : Text
  ne_nil : text ≠ []
  noColon : ':' ∉ text
  noOne : '1' ∉ text
  noBar : text.head? ≠ some '|'

/-- A list of chunks, repeats and pairs of endings. What is repeated starts with a chunk. -/
inductive Passage where
  | nil
  | chunk (c : Chunk) (rest : Passage)
  | twice (c : Chunk) (body rest : Passage)
  | endings (c : Chunk) (main first rest : Passage)

namespace Passage

/-- The text of a passage, with its marks. -/
def written : Passage → Text
  | .nil => []
  | .chunk c rest => c.text ++ rest.written
  | .twice c body rest => opening ++ (c.text ++ body.written) ++ closing ++ rest.written
  | .endings c main first rest =>
    opening ++ (c.text ++ main.written) ++ ['|', '1'] ++ first.written ++ closing ++ ['2'] ++
      rest.written

/-- The music that a passage stands for. -/
def meaning : Passage → Text
  | .nil => []
  | .chunk c rest => c.text ++ rest.meaning
  | .twice c body rest => c.text ++ body.meaning ++ (c.text ++ body.meaning) ++ rest.meaning
  | .endings c main first rest =>
    c.text ++ main.meaning ++ ['|'] ++ first.meaning ++ (c.text ++ main.meaning) ++ ['|'] ++
      rest.meaning

/-- Repeats and pairs of endings at any depth. -/
def repeats : Passage → Nat
  | .nil => 0
  | .chunk _ rest => rest.repeats
  | .twice _ body rest => body.repeats + 1 + rest.repeats
  | .endings _ main first rest => main.repeats + first.repeats + 1 + rest.repeats

/-- A passage is never longer than its meaning but for the characters of its marks. -/
theorem byteLength_written_le (p : Passage) :
    byteLength p.written ≤ byteLength p.meaning + 7 * p.repeats := by
  have hopening : byteLength opening = 2 := rfl
  have hclosing : byteLength closing = 2 := rfl
  have hone : byteLength ['|', '1'] = 2 := rfl
  have htwo : byteLength ['2'] = 1 := rfl
  induction p with
  | nil => exact le_rfl
  | chunk c rest ih =>
    simp only [written, meaning, repeats, byteLength_append]
    omega
  | twice c body rest ihBody ihRest =>
    simp only [written, meaning, repeats, byteLength_append]
    omega
  | endings c main first rest ihMain ihFirst ihRest =>
    simp only [written, meaning, repeats, byteLength_append]
    omega

theorem colon_notMem_meaning (p : Passage) : ':' ∉ p.meaning := by
  induction p with
  | nil => simp [meaning]
  | chunk c rest ih => simp [meaning, c.noColon, ih]
  | twice c body rest ihBody ihRest => simp [meaning, c.noColon, ihBody, ihRest]
  | endings c main first rest ihMain ihFirst ihRest =>
    simp [meaning, c.noColon, ihMain, ihFirst, ihRest]

theorem one_notMem_meaning (p : Passage) : '1' ∉ p.meaning := by
  induction p with
  | nil => simp [meaning]
  | chunk c rest ih => simp [meaning, c.noOne, ih]
  | twice c body rest ihBody ihRest => simp [meaning, c.noOne, ihBody, ihRest]
  | endings c main first rest ihMain ihFirst ihRest =>
    simp [meaning, c.noOne, ihMain, ihFirst, ihRest]

end Passage

/-! ## One closing mark -/

/-- Text in which every mark has been treated or is still open: it holds no closing mark, and no
bar line that follows can complete one. -/
def Settled (t : Text) : Prop := FreeOf ':' '|' t ∧ t.getLast? ≠ some ':'

theorem settled_nil : Settled [] := ⟨freeOf_nil,by simp⟩

theorem Settled.append {lead t : Text} (h : Settled lead) (ht : ':' ∉ t) : Settled (lead ++ t) := by
  refine ⟨freeOf_append.mpr ⟨h.1,freeOf_of_first_notMem ht,fun hs => h.2 hs.1⟩,?_⟩
  rw [List.getLast?_append]
  cases hlast : t.getLast? with
  | none => simpa using h.2
  | some x =>
    have hx : x ∈ t := List.mem_of_getLast? hlast
    simpa using fun he : x = ':' => ht (he ▸ hx)

/-- An opening mark before music leaves no closing mark behind. -/
theorem Settled.freeOf_opening {lead content : Text} (h : Settled lead) (hcolon : ':' ∉ content)
    (hbar : content.head? ≠ some '|') : FreeOf ':' '|' (lead ++ opening ++ content) := by
  rw [List.append_assoc]
  refine freeOf_append.mpr ⟨h.1,?_,fun hs => h.2 hs.1⟩
  refine freeOf_cons.mpr ⟨fun hs => absurd hs.1 (by decide),?_⟩
  exact freeOf_cons.mpr ⟨fun hs => hbar hs.2,freeOf_of_first_notMem hcolon⟩

theorem Chunk.head?_append (c : Chunk) (t : Text) : (c.text ++ t).head? = c.text.head? := by
  cases h : c.text with
  | nil => exact absurd h c.ne_nil
  | cons x rest => rfl

theorem Settled.chunk {lead : Text} (h : Settled lead) (c : Chunk) :
    Settled (lead ++ opening ++ c.text) := by
  refine ⟨h.freeOf_opening c.noColon c.noBar,?_⟩
  rw [List.getLast?_append_of_ne_nil _ c.ne_nil]
  exact fun hlast => c.noColon (List.mem_of_getLast? hlast)

theorem repeatedPart_of_opening (t lead content : Text) (hcolon : ':' ∉ content) :
    repeatedPart t (lead ++ opening ++ content) = .ok (lead, content) := by
  have hcut : cutLastMark opening (lead ++ opening ++ content) = some (lead, content) :=
    cutLastMark_append (by decide) lead content hcolon
  rw [repeatedPart, hcut]

theorem splitFirstEnding_of_freeOf {content : Text} (hbracket : FreeOf '[' '1' content)
    (hbar : FreeOf '|' '1' content) : splitFirstEnding content = (content, none) := by
  rw [splitFirstEnding, cutMark_eq_none_iff.mpr hbracket]
  dsimp only
  rw [cutMark_eq_none_iff.mpr hbar]

theorem splitFirstEnding_append {main first : Text} (hmain : '1' ∉ main) (hfirst : '1' ∉ first) :
    splitFirstEnding (main ++ ['|', '1'] ++ first) = (main ++ ['|'], some first) := by
  have hbracket : FreeOf '[' '1' (main ++ ['|', '1'] ++ first) := by
    rw [List.append_assoc]
    refine freeOf_append.mpr ⟨freeOf_of_second_notMem hmain,?_,by simp⟩
    refine freeOf_cons.mpr ⟨fun h => absurd h.1 (by decide),?_⟩
    exact freeOf_cons.mpr ⟨fun h => absurd h.1 (by decide),freeOf_of_second_notMem hfirst⟩
  rw [splitFirstEnding, cutMark_eq_none_iff.mpr hbracket]
  dsimp only
  rw [cutMark_append (by decide) main first (freeOf_of_second_notMem hmain)]

/-- A repeat without endings is its content twice. -/
theorem writeOut_twice (t lead rest : Text) {content : Text} (hcolon : ':' ∉ content)
    (hbracket : FreeOf '[' '1' content) (hbar : FreeOf '|' '1' content) :
    writeOut t (lead ++ opening ++ content) rest = .ok (lead ++ (content ++ content) ++ rest) := by
  rw [writeOut, repeatedPart_of_opening _ lead content hcolon]
  dsimp only [bind, Except.bind]
  rw [splitFirstEnding_of_freeOf hbracket hbar]
  simp only [List.append_assoc]

section Step
variable {lead content main first rest : Text} (fuel : Nat)

/-- The first closing mark behind a settled text is found, and its repeat is written out. -/
theorem writeOutAll_closing {next : Text} (hlead : Settled lead) (hcolon : ':' ∉ content)
    (hbar : content.head? ≠ some '|')
    (hnext : writeOut (lead ++ opening ++ content ++ closing ++ rest) (lead ++ opening ++ content)
      rest = .ok next)
    (hsize : byteLength next ≤ mostBytes) :
    writeOutAll (fuel + 1) (lead ++ opening ++ content ++ closing ++ rest) =
      writeOutAll fuel next := by
  have hcut : cutMark closing (lead ++ opening ++ content ++ closing ++ rest) =
      some (lead ++ opening ++ content, rest) :=
    cutMark_append (by decide) _ rest (hlead.freeOf_opening hcolon hbar)
  rw [writeOutAll, hcut]
  dsimp only
  rw [hnext]
  exact if_neg (Nat.not_lt.mpr hsize)

theorem writeOutAll_twice (rest : Text) (hlead : Settled lead) (hcolon : ':' ∉ content)
    (hone : '1' ∉ content) (hbar : content.head? ≠ some '|')
    (hsize : byteLength (lead ++ (content ++ content) ++ rest) ≤ mostBytes) :
    writeOutAll (fuel + 1) (lead ++ opening ++ content ++ closing ++ rest) =
      writeOutAll fuel (lead ++ (content ++ content) ++ rest) := by
  have hnext := writeOut_twice (lead ++ opening ++ content ++ closing ++ rest) lead rest hcolon
    (freeOf_of_second_notMem hone) (freeOf_of_second_notMem hone)
  exact writeOutAll_closing fuel hlead hcolon hbar hnext hsize

theorem writeOutAll_endings (rest : Text) (hlead : Settled lead) (hmain : ':' ∉ main)
    (hmainOne : '1' ∉ main) (hfirst : ':' ∉ first) (hfirstOne : '1' ∉ first)
    (hbar : (main ++ ['|', '1'] ++ first).head? ≠ some '|')
    (hsize : byteLength (lead ++ (main ++ ['|'] ++ first ++ main ++ ['|']) ++ rest) ≤ mostBytes) :
    writeOutAll (fuel + 1)
        (lead ++ opening ++ (main ++ ['|', '1'] ++ first) ++ closing ++ (['2'] ++ rest)) =
      writeOutAll fuel (lead ++ (main ++ ['|'] ++ first ++ main ++ ['|']) ++ rest) := by
  have hcolon : ':' ∉ main ++ ['|', '1'] ++ first := by simp [hmain, hfirst]
  refine writeOutAll_closing fuel hlead hcolon hbar ?_ hsize
  rw [writeOut, repeatedPart_of_opening _ lead _ hcolon]
  dsimp only [bind, Except.bind]
  rw [splitFirstEnding_append hmainOne hfirstOne]
  simp only [dropSecondEnding, List.append_assoc, List.cons_append, List.nil_append]

end Step

/-! ## All marks of a passage -/

/-- Treating as many closing marks as a passage has repeats replaces its written form by its
meaning, whatever settled text stands before it and whatever text follows. -/
theorem writeOutAll_written (p : Passage) (lead rest : Text) (fuel : Nat) (hlead : Settled lead)
    (hsize : byteLength lead + byteLength p.meaning + 7 * p.repeats + byteLength rest ≤ mostBytes) :
    writeOutAll (fuel + p.repeats) (lead ++ p.written ++ rest) =
      writeOutAll fuel (lead ++ p.meaning ++ rest) := by
  induction p generalizing lead rest fuel with
  | nil => rfl
  | chunk c p ih =>
    simp only [Passage.meaning, Passage.repeats, byteLength_append] at hsize
    have h := ih (lead ++ c.text) rest fuel (hlead.append c.noColon) (by
      simp only [byteLength_append]
      omega)
    simpa only [Passage.written, Passage.meaning, Passage.repeats, List.append_assoc] using h
  | twice c body p ihBody ih =>
    have hwritten := p.byteLength_written_le
    have hopening : byteLength opening = 2 := rfl
    have hclosing : byteLength closing = 2 := rfl
    have hcolon : ':' ∉ c.text ++ body.meaning := by simp [c.noColon, body.colon_notMem_meaning]
    have hone : '1' ∉ c.text ++ body.meaning := by simp [c.noOne, body.one_notMem_meaning]
    simp only [Passage.meaning, Passage.repeats, byteLength_append] at hsize
    -- the marks of the body stand before the closing mark of this repeat
    have hbody := ihBody (lead ++ opening ++ c.text) (closing ++ (p.written ++ rest))
      (fuel + p.repeats + 1) (hlead.chunk c) (by simp only [byteLength_append]; omega)
    have hstep := writeOutAll_twice (fuel + p.repeats) (p.written ++ rest) hlead hcolon hone
      (by rw [c.head?_append]; exact c.noBar) (by simp only [byteLength_append]; omega)
    have hrest := ih (lead ++ (c.text ++ body.meaning ++ (c.text ++ body.meaning))) rest fuel
      (hlead.append (by simp [c.noColon, body.colon_notMem_meaning]))
      (by simp only [byteLength_append]; omega)
    have hfuel : fuel + (body.repeats + 1 + p.repeats) = fuel + p.repeats + 1 + body.repeats := by
      omega
    simp only [Passage.written, Passage.meaning, Passage.repeats, hfuel, List.append_assoc]
      at hbody hstep hrest ⊢
    exact hbody.trans (hstep.trans hrest)
  | endings c main first p ihMain ihFirst ih =>
    have hwritten := p.byteLength_written_le
    have hwrittenFirst := first.byteLength_written_le
    have hopening : byteLength opening = 2 := rfl
    have hclosing : byteLength closing = 2 := rfl
    have hbar : byteLength ['|'] = 1 := rfl
    have hnumber : byteLength ['|', '1'] = 2 := rfl
    have hsecond : byteLength ['2'] = 1 := rfl
    have hcolon : ':' ∉ c.text ++ main.meaning := by simp [c.noColon, main.colon_notMem_meaning]
    have hone : '1' ∉ c.text ++ main.meaning := by simp [c.noOne, main.one_notMem_meaning]
    simp only [Passage.meaning, Passage.repeats, byteLength_append] at hsize
    have hmain := ihMain (lead ++ opening ++ c.text)
      (['|', '1'] ++ (first.written ++ (closing ++ (['2'] ++ (p.written ++ rest)))))
      (fuel + p.repeats + 1 + first.repeats) (hlead.chunk c)
      (by simp only [byteLength_append]; omega)
    have hsettled : Settled (lead ++ opening ++ c.text ++ (main.meaning ++ ['|', '1'])) :=
      (hlead.chunk c).append (by simp [main.colon_notMem_meaning])
    have hfirst := ihFirst _ (closing ++ (['2'] ++ (p.written ++ rest))) (fuel + p.repeats + 1)
      hsettled (by simp only [byteLength_append]; omega)
    have hstep := writeOutAll_endings (fuel + p.repeats) (p.written ++ rest) hlead hcolon
      hone first.colon_notMem_meaning first.one_notMem_meaning
      (by rw [List.append_assoc, List.append_assoc, c.head?_append]; exact c.noBar)
      (by simp only [byteLength_append]; omega)
    have hrest := ih
      (lead ++ (c.text ++ main.meaning ++ ['|'] ++ first.meaning ++ (c.text ++ main.meaning) ++
        ['|'])) rest fuel
      (hlead.append (by simp [c.noColon, main.colon_notMem_meaning, first.colon_notMem_meaning]))
      (by simp only [byteLength_append]; omega)
    have hfuel : fuel + (main.repeats + first.repeats + 1 + p.repeats) =
        fuel + p.repeats + 1 + first.repeats + main.repeats := by omega
    simp only [Passage.written, Passage.meaning, Passage.repeats, hfuel, List.append_assoc]
      at hmain hfirst hstep hrest ⊢
    exact hmain.trans (hfirst.trans (hstep.trans hrest))

/-! ## Written forms hold no double mark -/

/-- Text that neither holds a double mark nor takes part in one with what stands beside it. -/
def Tidy (t : Text) : Prop := FreeOf ':' ':' t ∧ t.head? ≠ some ':' ∧ t.getLast? ≠ some ':'

theorem tidy_of_notMem {t : Text} (h : ':' ∉ t) : Tidy t :=
  ⟨freeOf_of_first_notMem h,fun hhead => h (List.mem_of_mem_head? hhead),
    fun hlast => h (List.mem_of_getLast? hlast)⟩

theorem Tidy.append {s t : Text} (hs : Tidy s) (ht : Tidy t) : Tidy (s ++ t) := by
  obtain ⟨hsFree,hsHead,hsLast⟩ := hs
  obtain ⟨htFree,htHead,htLast⟩ := ht
  refine ⟨freeOf_append.mpr ⟨hsFree,htFree,fun h => hsLast h.1⟩,?_,?_⟩
  · rw [List.head?_append]
    cases h : s.head? with
    | none => simpa using htHead
    | some x => simpa [h] using hsHead
  · rw [List.getLast?_append]
    cases h : t.getLast? with
    | none => simpa using hsLast
    | some x => simpa [h] using htLast

/-- Marks around music make no double mark with it. -/
theorem Tidy.between {t : Text} (h : Tidy t) (hne : t ≠ []) : Tidy (opening ++ t ++ closing) := by
  obtain ⟨hFree,hHead,hLast⟩ := h
  obtain ⟨x,rest,rfl⟩ := List.exists_cons_of_ne_nil hne
  have hend : (opening ++ (x :: rest) ++ closing).getLast? = some '|' := by
    rw [List.getLast?_append_of_ne_nil _ (by decide)]
    rfl
  refine ⟨?_,by simp [opening],by rw [hend]; decide⟩
  refine freeOf_append.mpr ⟨freeOf_append.mpr ⟨?_,hFree,fun hs => hHead hs.2⟩,?_,?_⟩
  · exact freeOf_cons.mpr ⟨by simp,freeOf_singleton _⟩
  · exact freeOf_cons.mpr ⟨by simp,freeOf_singleton _⟩
  · rw [List.getLast?_append_of_ne_nil _ hne]
    exact fun hs => hLast hs.1

theorem tidy_written (p : Passage) : Tidy p.written := by
  induction p with
  | nil => exact tidy_of_notMem (by simp [Passage.written])
  | chunk c rest ih => exact (tidy_of_notMem c.noColon).append ih
  | twice c body rest ihBody ih =>
    have hbody : Tidy (c.text ++ body.written) := (tidy_of_notMem c.noColon).append ihBody
    exact (hbody.between (by simp [c.ne_nil])).append ih
  | endings c main first rest ihMain ihFirst ih =>
    have hinside : Tidy (c.text ++ main.written ++ ['|', '1'] ++ first.written) :=
      (((tidy_of_notMem c.noColon).append ihMain).append (tidy_of_notMem (by simp))).append ihFirst
    have houtside := (hinside.between (by simp [c.ne_nil])).append
      (tidy_of_notMem (by simp : ':' ∉ ['2']))
    have h := houtside.append ih
    simp only [Passage.written, List.append_assoc] at h ⊢
    exact h

theorem splitDoublesFrom_of_freeOf (passed : Text) {t : Text} (h : FreeOf ':' ':' t) :
    splitDoublesFrom passed t = passed.reverse ++ t := by
  induction t generalizing passed with
  | nil => simp [splitDoublesFrom]
  | cons x t ih =>
    obtain ⟨hx,ht⟩ := freeOf_cons.mp h
    cases t with
    | nil => simp [splitDoublesFrom]
    | cons y t =>
      have hxy : ¬(x = ':' ∧ y = ':') := by simpa using hx
      rw [splitDoublesFrom, if_neg hxy, ih (x :: passed) ht]
      simp

/-! ## The whole expansion -/

theorem writeOutAll_of_notMem (fuel : Nat) {t : Text} (h : ':' ∉ t) :
    writeOutAll (fuel + 1) t = .ok t := by
  have hcut : cutMark closing t = none := cutMark_eq_none_iff.mpr (freeOf_of_first_notMem h)
  rw [writeOutAll, hcut]
  dsimp only
  rw [replacePair_of_freeOf _ (freeOf_of_second_notMem h)]

/-- Whatever is repeated has an opening mark in front. -/
theorem repeats_eq_zero_of_freeOf (p : Passage) (h : FreeOf '|' ':' p.written) : p.repeats = 0 := by
  induction p with
  | nil => rfl
  | chunk c rest ih => exact ih (freeOf_append.mp h).2.1
  | twice c body rest => exact absurd ⟨rfl,rfl⟩ (freeOf_cons.mp h).1
  | endings c main first rest => exact absurd ⟨rfl,rfl⟩ (freeOf_cons.mp h).1

theorem written_eq_meaning (p : Passage) (hp : p.repeats = 0) : p.written = p.meaning := by
  induction p with
  | nil => rfl
  | chunk c rest ih => rw [Passage.written, Passage.meaning, ih hp]
  | twice c body rest => exact absurd hp (by simp [Passage.repeats])
  | endings c main first rest => exact absurd hp (by simp [Passage.repeats])

/-- The expansion of a passage is its meaning, as long as fewer marks have to be treated than the
limit allows and the text stays within its size. -/
theorem expandSection_written (p : Passage) (hrepeats : p.repeats < mostExpansions)
    (hsize : byteLength p.meaning + 7 * p.repeats ≤ mostBytes) :
    expandSection p.written = .ok p.meaning := by
  have hdoubles : splitDoubles p.written = p.written :=
    splitDoublesFrom_of_freeOf [] (tidy_written p).1
  rw [expandSection, hdoubles]
  split
  · have hfuel : mostExpansions = (mostExpansions - 1 - p.repeats) + 1 + p.repeats := by
      unfold mostExpansions at hrepeats ⊢
      omega
    have hall := writeOutAll_written p [] [] (mostExpansions - 1 - p.repeats + 1) settled_nil
      (by simpa using hsize)
    rw [← hfuel, List.nil_append, List.append_nil, List.nil_append, List.append_nil] at hall
    rw [hall]
    exact writeOutAll_of_notMem _ p.colon_notMem_meaning
  · next hmarks =>
    simp only [Bool.or_eq_true, not_or, Bool.not_eq_true] at hmarks
    have hfree : FreeOf '|' ':' p.written := hasMark_eq_false_iff.mp hmarks.1.2
    rw [written_eq_meaning p (repeats_eq_zero_of_freeOf p hfree)]

/-- A repeat inside the shared part of a pair of endings. -/
theorem expandSection_written_nested :
    ∃ p : Passage, p.repeats < mostExpansions ∧
      byteLength p.meaning + 7 * p.repeats ≤ mostBytes ∧
      p.written = "|:A|:B:||1C:|2D".toList ∧ p.meaning = "ABB|CABB|D".toList ∧
      expandSection p.written = .ok p.meaning := by
  let a : Chunk := ⟨['A'],by decide,by decide,by decide,by decide⟩
  let b : Chunk := ⟨['B'],by decide,by decide,by decide,by decide⟩
  let c : Chunk := ⟨['C'],by decide,by decide,by decide,by decide⟩
  let d : Chunk := ⟨['D'],by decide,by decide,by decide,by decide⟩
  let p : Passage := .endings a (.twice b .nil .nil) (.chunk c .nil) (.chunk d .nil)
  exact ⟨p,by decide,by decide,by decide,by decide,
    expandSection_written p (by decide) (by decide)⟩

end AbcTune.Repeat
