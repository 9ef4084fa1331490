import AbcTune.Fault
import AbcTune.Part
import AbcTune.Proofs.Text.Run

/-! # Part sequences as they are written

A sequence is written as separators, labels and groups, one behind another, with a count behind a
label or a group. Reading takes these texts, in whatever groups they stand, and means by them what
they are written for. It takes no other text: what it has read so far is written up to the groups
that are still open, and the rest of the text has to close them.
-/
namespace AbcTune

open PartSequence

variable {t rest : Text} {n : Nat} {outer : List (List Char)} {current played : List Char}

/-! ## Counts -/

/-- The count behind a label or a group: nothing, which means 1, or the digits of a number that is
allowed. -/
structure PartCount where
  digits : Text
  isDigit_digits : ∀ c ∈ digits, c.isDigit = true
  one_le : 1 ≤ writtenNumber 1 digits
  le_most : writtenNumber 1 digits ≤ mostRepeats

def PartCount.number (count : PartCount) : Nat := writtenNumber 1 count.digits

namespace PartSequence

theorem readCount_eq (digits : Text) :
    readCount digits =
      if 1 ≤ writtenNumber 1 digits ∧ writtenNumber 1 digits ≤ mostRepeats then
        .ok (writtenNumber 1 digits)
      else .error (.badCount digits) := by
  unfold readCount writtenNumber
  cases digits.isEmpty with
  | true => rfl
  | false => rfl

theorem readCount_digits (count : PartCount) : readCount count.digits = .ok count.number := by
  rw [readCount_eq, if_pos ⟨count.one_le,count.le_most⟩]
  rfl

/-- The digits behind an item are a count if they are read at all. -/
theorem exists_partCount (h : readCount (rest.takeWhile Char.isDigit) = .ok n) :
    ∃ count : PartCount, rest = count.digits ++ rest.dropWhile Char.isDigit ∧ count.number = n := by
  rw [readCount_eq] at h
  split at h
  · next hbounds =>
    refine ⟨⟨_,fun _ hc => List.mem_takeWhile_imp hc,hbounds.1,hbounds.2⟩,?_,Except.ok.inj h⟩
    exact List.takeWhile_append_dropWhile.symm
  · cases h

end PartSequence

/-! ## Written sequences -/

/-- A sequence as it is written. The digits of a count are all that stand behind its item, since
none of the others starts with a digit. -/
inductive PartText where
  | done
  | separator (c : Char) (hc : isSeparator c = true) (rest : PartText)
  | label (c : Char) (hc : c.isUpper = true) (count : PartCount) (rest : PartText)
  | group (inside : PartText) (count : PartCount) (rest : PartText)

namespace PartText

def text : PartText → Text
  | done => []
  | separator c _ rest => c :: rest.text
  | label c _ count rest => c :: (count.digits ++ rest.text)
  | group inside count rest => '(' :: (inside.text ++ ')' :: (count.digits ++ rest.text))

/-- The labels that a sequence means: a label is itself, a group is its sequence, and a count
repeats what stands before it. -/
def labels : PartText → List Char
  | done => []
  | separator _ _ rest => rest.labels
  | label c _ count rest => repeated count.number [c] ++ rest.labels
  | group inside count rest => repeated count.number inside.labels ++ rest.labels

end PartText

theorem not_isDigit_of_isUpper {c : Char} (h : c.isUpper = true) : c.isDigit = false := by
  have hletter : ('A' : Char).val ≤ c.val := (of_decide_eq_true h).1
  have hnine : ('9' : Char).val.toNat < ('A' : Char).val.toNat := by decide
  simp only [Char.isDigit, Bool.and_eq_false_iff, decide_eq_false_iff_not, ge_iff_le,
    UInt32.le_iff_toNat_le]
  exact .inr (not_le.mpr (hnine.trans_le (UInt32.le_iff_toNat_le.mp hletter)))

theorem isSeparator_cases {c : Char} (h : isSeparator c = true) : c = '.' ∨ c = ' ' ∨ c = '\t' := by
  simpa [isSeparator, or_assoc] using h

/-- A count ends where a sequence goes on. -/
theorem PartText.not_isDigit_head? (p : PartText) (ht : ∀ c ∈ t.head?, c.isDigit = false) :
    ∀ c ∈ (p.text ++ t).head?, c.isDigit = false := by
  cases p with
  | done => exact ht
  | separator c hc rest =>
    rintro _ ⟨⟩
    rcases isSeparator_cases hc with rfl | rfl | rfl <;> rfl
  | label c hc count rest =>
    rintro _ ⟨⟩
    exact not_isDigit_of_isUpper hc
  | group inside count rest =>
    rintro _ ⟨⟩
    rfl

/-! ## Reading what is written -/

namespace PartSequence

theorem readFrom_separator {c : Char} (hc : isSeparator c = true) :
    readFrom outer current (c :: rest) = readFrom outer current rest := by
  rcases isSeparator_cases hc with rfl | rfl | rfl <;> rw [readFrom.eq_def] <;> rfl

theorem readFrom_label {c : Char} (hc : c.isUpper = true) (count : PartCount)
    (hrest : ∀ d ∈ rest.head?, d.isDigit = false) :
    readFrom outer current (c :: (count.digits ++ rest)) =
      readFrom outer (current ++ repeated count.number [c]) rest := by
  rw [readFrom.eq_def]
  dsimp only
  rw [if_pos hc, takeWhile_run count.isDigit_digits hrest,
    dropWhile_run count.isDigit_digits hrest, readCount_digits]
  rfl

theorem readFrom_open :
    readFrom outer current ('(' :: rest) = readFrom (current :: outer) [] rest := by
  rw [readFrom.eq_def]
  rfl

theorem readFrom_close {before : List Char} (count : PartCount)
    (hrest : ∀ d ∈ rest.head?, d.isDigit = false) :
    readFrom (before :: outer) current (')' :: (count.digits ++ rest)) =
      readFrom outer (before ++ repeated count.number current) rest := by
  rw [readFrom, takeWhile_run count.isDigit_digits hrest, dropWhile_run count.isDigit_digits hrest,
    readCount_digits]
  rfl

/-- A written sequence is read as its labels, in every group and in front of every text that does
not go on with the digits of a count. -/
theorem readFrom_text (p : PartText) (ht : ∀ c ∈ t.head?, c.isDigit = false) :
    readFrom outer current (p.text ++ t) = readFrom outer (current ++ p.labels) t := by
  induction p generalizing outer current t with
  | done => rw [PartText.text, PartText.labels, List.nil_append, List.append_nil]
  | separator c hc rest ih =>
    rw [PartText.text, PartText.labels, List.cons_append, readFrom_separator hc, ih ht]
  | label c hc count rest ih =>
    rw [PartText.text, PartText.labels, List.cons_append, List.append_assoc,
      readFrom_label hc count (rest.not_isDigit_head? ht), ih ht, List.append_assoc]
  | group inside count rest ihInside ih =>
    have hclose : ∀ c ∈ (')' :: (count.digits ++ (rest.text ++ t))).head?, c.isDigit = false := by
      rintro _ ⟨⟩
      rfl
    rw [PartText.text, PartText.labels, List.cons_append, List.append_assoc, List.cons_append,
      List.append_assoc, readFrom_open, ihInside hclose,
      readFrom_close count (rest.not_isDigit_head? ht), ih ht, List.nil_append, List.append_assoc]

/-! ## What is read is written -/

/-- The rest of a text closes the open groups: the sequence under way goes on in it, and then each
group has its end, with a count, and the sequence around it goes on. -/
def Closes (played : List Char) : List (List Char) → List Char → Text → Prop
  | [], current, t => ∃ p : PartText, t = p.text ∧ played = current ++ p.labels
  | before :: outer, current, t => ∃ (p : PartText) (count : PartCount) (rest : Text),
      t = p.text ++ ')' :: (count.digits ++ rest) ∧
        Closes played outer (before ++ repeated count.number (current ++ p.labels)) rest

/-- Something may be written in front of a sequence that goes on. -/
theorem Closes.extend (front : Text) (item : List Char)
    (h : Closes played outer (current ++ item) t)
    (hfront : ∀ p : PartText, ∃ q : PartText, q.text = front ++ p.text ∧
      q.labels = item ++ p.labels) :
    Closes played outer current (front ++ t) := by
  cases outer with
  | nil =>
    obtain ⟨p,rfl,rfl⟩ := h
    obtain ⟨q,htext,hlabels⟩ := hfront p
    exact ⟨q,htext.symm,by rw [hlabels, List.append_assoc]⟩
  | cons before outer =>
    obtain ⟨p,count,rest,rfl,hcloses⟩ := h
    obtain ⟨q,htext,hlabels⟩ := hfront p
    refine ⟨q,count,rest,by rw [htext, List.append_assoc],?_⟩
    rw [hlabels, ← List.append_assoc]
    exact hcloses

/-- Whatever is read without a problem is written up to the groups that are open. -/
theorem closes_of_readFrom (h : readFrom outer current t = .ok played) :
    Closes played outer current t := by
  fun_induction readFrom outer current t with
  | case1 outer current houter =>
    obtain rfl := List.isEmpty_iff.mp houter
    exact ⟨.done,rfl,(Except.ok.inj h).symm.trans (List.append_nil _).symm⟩
  | case3 outer current c rest hc ih =>
    obtain ⟨n,hn,hread⟩ := exists_of_bind_ok h
    obtain ⟨count,hrest,rfl⟩ := exists_partCount hn
    have hcloses := (ih _ hread).extend (c :: count.digits) _ fun p =>
      ⟨.label c hc count p,rfl,rfl⟩
    rwa [List.cons_append, ← hrest] at hcloses
  | case4 outer current rest _ ih =>
    -- The group that opens here closes before those around it, with what is written inside.
    obtain ⟨inside,count,rest,rfl,hcloses⟩ := ih h
    have hcloses := hcloses.extend ('(' :: (inside.text ++ ')' :: count.digits)) _ fun p =>
      ⟨.group inside count p,by simp [PartText.text],rfl⟩
    simpa using hcloses
  | case5 outer current c rest _ _ hc ih =>
    have hcloses : Closes played outer (current ++ []) rest := by
      rw [List.append_nil]
      exact ih h
    exact hcloses.extend [c] [] fun p => ⟨.separator c hc p,rfl,rfl⟩
  | case6 current rest before outer _ _ _ ih =>
    obtain ⟨n,hn,hread⟩ := exists_of_bind_ok h
    obtain ⟨count,hrest,rfl⟩ := exists_partCount hn
    refine ⟨.done,count,_,congrArg (')' :: ·) hrest,?_⟩
    rw [PartText.labels, List.append_nil]
    exact ih _ hread
  | case2 => cases h
  | case7 => cases h

/-- A text is read without a problem just if it is a written sequence, and then as the labels that
it means. -/
theorem read_eq_ok_iff :
    read t = .ok played ↔ ∃ p : PartText, p.text = t ∧ p.labels = played := by
  constructor
  · intro h
    obtain ⟨p,rfl,rfl⟩ := closes_of_readFrom h
    exact ⟨p,rfl,rfl⟩
  · rintro ⟨p,rfl,rfl⟩
    have h : readFrom [] [] (p.text ++ []) = readFrom [] ([] ++ p.labels) [] :=
      readFrom_text p nofun
    rw [List.append_nil, List.nil_append] at h
    exact h.trans (readFrom.eq_def ..)

example : read "(AB)2 C".toList = .ok "ABABC".toList := by decide +kernel

end PartSequence
end AbcTune
