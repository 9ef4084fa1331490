import AbcTune.Proofs.Repeat.Doubles
import AbcTune.Proofs.Repeat.Limit

/-! # What is left to write out

Writing out a repeat puts pieces of a text side by side that were apart, and two colons that meet
there are a double mark which has not been in the text before. They only meet behind the part that
two endings share, if that part leaves off with a colon.
-/
namespace AbcTune.Repeat

open Text

variable {t u before after lead content main first : Text} {q r : Tail}

/-! ## Where the music starts -/

/-- Behind this text no tuplet and no double mark is under way. -/
def Ended (t : Text) : Prop := t = [] ∨ t.getLast? = some '\n' ∨ t.getLast? = some ']'

theorem Ended.append (h : Ended t) (hlast : u.getLast? = some '\n') : Ended (u ++ t) := by
  rcases h with rfl | h
  · rw [List.append_nil]
    exact .inr (.inl hlast)
  · have hne : t ≠ [] := by
      rintro rfl
      simp at h
    right
    rwa [List.getLast?_append_of_ne_nil _ hne]

theorem Ended.eq_plain (h : Ended t) (hread : Tail.plain.after t = some q) : q = .plain := by
  rcases t.eq_nil_or_concat with rfl | ⟨s,c,rfl⟩
  · exact (Option.some.inj hread).symm
  · rw [List.concat_eq_append] at h hread
    obtain ⟨p,-,hp⟩ := Tail.exists_of_after_append hread
    have hc : c = '\n' ∨ c = ']' := by simpa [Ended] using h
    have hplain : p.next c = some .plain := by
      rcases hc with rfl | rfl <;> exact p.next_of_plain (by decide) (by decide) (by decide)
    rw [Tail.after_cons, hplain] at hp
    exact (Option.some.inj hp).symm

theorem ended_take_leadLength {line : Text} (h : isField (trimStart line) = false)
    (rest : List Text) (t : Text) : Ended ((line ++ t).take (leadLength (line :: rest))) := by
  rw [leadLength_of_not_isField h]
  split
  · by_cases hclose : ']' ∈ line
    · obtain ⟨front,back,rfl,hfront⟩ := List.eq_append_cons_of_mem hclose
      rw [cutAt_append hfront]
      refine .inr (.inr ?_)
      simp [List.take_append]
    · rw [cutAt_of_notMem hclose]
      exact .inl rfl
  · exact .inl rfl

/-- The music starts where nothing is under way, or there is none. -/
theorem ended_take_musicStart (t : Text) (hmusic : musicStart t < t.length) :
    Ended (t.take (musicStart t)) := by
  induction h : t.length using Nat.strongRecOn generalizing t with
  | ind n ih =>
    subst h
    by_cases hfeed : '\n' ∈ t
    · obtain ⟨line,rest,rfl,hline⟩ := List.eq_append_cons_of_mem hfeed
      have hlast : (line ++ ['\n']).getLast? = some '\n' := List.getLast?_concat
      rw [musicStart, lineBlocks_line hline] at hmusic ⊢
      rw [List.append_cons line '\n' rest]
      cases hfield : isField (trimStart (line ++ ['\n'])) with
      | false => exact ended_take_leadLength hfield _ rest
      | true =>
        rw [leadLength_of_isField hfield] at hmusic ⊢
        have hrest : musicStart rest < rest.length := by
          simp only [List.length_append, List.length_cons, List.length_nil] at hmusic
          unfold musicStart
          omega
        rw [List.take_length_add_append]
        exact (ih rest.length (by simp; omega) rest hrest rfl).append hlast
    · have hne : t ≠ [] := by
        rintro rfl
        cases hmusic
      have hblock : lineBlocks t = [t] := lineBlocksFrom_of_notMem [] hfeed (.inr hne)
      rw [musicStart, hblock] at hmusic ⊢
      cases hfield : isField (trimStart t) with
      | false => simpa using ended_take_leadLength hfield [] []
      | true =>
        rw [leadLength_of_isField hfield] at hmusic
        exact absurd hmusic (by simp)

/-! ## Texts behind others -/

/-- The text can stand behind any one that leaves off with no colon of a double mark. -/
def Follows (t : Text) : Prop := ∀ q ≠ Tail.colon, ∃ r, q.after t = some r

/-- It can, and leaves off with none itself. -/
def Joins (t : Text) : Prop := ∀ q ≠ Tail.colon, ∃ r ≠ Tail.colon, q.after t = some r

theorem Joins.follows {s : Text} (h : Joins s) (ht : Follows t) : Follows (s ++ t) := by
  intro q hq
  obtain ⟨p,hp,hread⟩ := h q hq
  obtain ⟨r,hr⟩ := ht p hp
  exact ⟨r,Tail.after_append_of hread hr⟩

theorem below_of_ne {b : Tail} (hb : b = .colon ∨ b = .plain) (hq : q ≠ .colon) : b.Below q :=
  hb.elim (fun hb => .inr (.inl hb)) fun hb => .inr (.inr ⟨hb,hq⟩)

theorem follows_of_after (h : Tail.plain.after t = some r) : Follows t := by
  intro q hq
  obtain ⟨r',hr',-⟩ := (below_of_ne (.inr rfl) hq).after h
  exact ⟨r',hr'⟩

theorem joins_of_after {b : Tail} (hb : b = .colon ∨ b = .plain) (h : b.after t = some r)
    (hr : r ≠ .colon) : Joins t := by
  intro q hq
  obtain ⟨r',hr',hbelow⟩ := (below_of_ne hb hq).after h
  exact ⟨r',hbelow.ne_colon hr,hr'⟩

theorem joins_of_getLast? {b : Tail} (hb : b = .colon ∨ b = .plain) (h : b.after t = some r)
    (hlast : t.getLast? ≠ some ':') : Joins t := by
  intro q hq
  obtain ⟨r',hr',-⟩ := (below_of_ne hb hq).after h
  refine ⟨r',?_,hr'⟩
  rintro rfl
  exact (Tail.getLast?_of_after hr').elim (fun hnil => hq hnil.2) hlast

/-! ## The parts of a repeat -/

/-- The first ending that the first closing mark of a text ends is marked with a bracket, directly
behind a colon. -/
def endsBehindColon (t : Text) : Bool :=
  match cutMark closing t with
  | none => false
  | some (before, _) =>
    match repeatedPart t before with
    | .error _ => false
    | .ok (_, content) =>
      match cutMark ['[', '1'] content with
      | none => false
      | some (main, _) => main.getLast? == some ':'

theorem getLast?_ne_of_endsBehindColon (hends : endsBehindColon t = false)
    (hcut : cutMark closing t = some (before,after))
    (hpart : repeatedPart t before = .ok (lead,content))
    (hending : cutMark ['[', '1'] content = some (main,first)) : main.getLast? ≠ some ':' := by
  simpa [endsBehindColon, hcut, hpart, hending] using hends

/-- What stands in front of a closing mark leaves off with no colon of a double mark. -/
theorem exists_tail_of_closing (h : Tail.plain.after (before ++ closing ++ after) = some r) :
    ∃ q ≠ .colon, Tail.plain.after before = some q ∧ Tail.plain.after after = some r := by
  rw [List.append_assoc] at h
  obtain ⟨q,hq,hclosing⟩ := Tail.exists_of_after_append h
  have hne : q ≠ .colon := by
    rintro rfl
    cases hclosing
  refine ⟨q,hne,hq,?_⟩
  cases q with
  | colon => exact absurd rfl hne
  | _ => exact hclosing

/-- The repeated part is read behind its opening mark, or from where the music starts. -/
theorem exists_tail_of_repeatedPart (hbefore : Tail.plain.after before = some q)
    (hfree : FreeOf ':' '|' before)
    (hpart : repeatedPart (before ++ closing ++ after) before = .ok (lead,content)) :
    ∃ b p : Tail, (b = .colon ∨ b = .plain) ∧ p ≠ .colon ∧ Tail.plain.after lead = some p ∧
      b.after content = some q := by
  unfold repeatedPart at hpart
  cases hcut : cutLastMark opening before with
  | some parts =>
    rw [hcut] at hpart
    obtain rfl := Except.ok.inj hpart
    obtain ⟨rfl,-⟩ := (cutLastMark_eq_some_iff (by decide)).mp hcut
    rw [List.append_assoc] at hbefore hfree
    obtain ⟨p,hlead,hcontent⟩ := Tail.exists_of_after_append hbefore
    refine ⟨.colon,p,.inl rfl,?_,hlead,?_⟩
    · rintro rfl
      have hseam := (freeOf_append.mp hfree).2.2
      rcases Tail.getLast?_of_after hlead with ⟨-,hplain⟩ | hlast
      · cases hplain
      · exact hseam ⟨hlast,rfl⟩
    · cases p <;> exact hcontent
  | none =>
    rw [hcut] at hpart
    dsimp only at hpart
    split at hpart
    · next hstart =>
      obtain ⟨rfl,rfl⟩ := Prod.mk.inj (Except.ok.inj hpart)
      generalize hn : musicStart (before ++ closing ++ after) = start at hstart
      have hinside : musicStart (before ++ closing ++ after) <
          (before ++ closing ++ after).length := by
        rw [hn]
        simp only [List.length_append, closing, List.length_cons]
        omega
      have hmusic := ended_take_musicStart _ hinside
      rw [hn, List.append_assoc, List.take_append_of_le_length hstart] at hmusic
      rw [← List.take_append_drop start before] at hbefore
      obtain ⟨p,hlead,hcontent⟩ := Tail.exists_of_after_append hbefore
      obtain rfl := hmusic.eq_plain hlead
      exact ⟨.plain,.plain,.inr rfl,by decide,hlead,hcontent⟩
    · cases hpart

theorem splitFirstEnding_eq_some (h : splitFirstEnding content = (main,some first)) :
    cutMark ['[', '1'] content = some (main,first) ∨
      ∃ front, main = front ++ ['|'] ∧ content = front ++ '|' :: '1' :: first := by
  unfold splitFirstEnding at h
  split at h
  · next hcut =>
    cases h
    exact .inl hcut
  · split at h
    · next front back hcut =>
      obtain ⟨rfl,hfirst⟩ := Prod.mk.inj h
      obtain rfl := Option.some.inj hfirst
      obtain ⟨hcontent,-⟩ := (cutMark_eq_some_iff (by decide)).mp hcut
      exact .inr ⟨front,rfl,by simpa using hcontent⟩
    · cases h

/-- What two endings share and the first ending stand behind other texts just as the repeated part
does. -/
theorem joins_of_splitFirstEnding {b : Tail} (hb : b = .colon ∨ b = .plain)
    (hcontent : b.after content = some q) (hq : q ≠ .colon)
    (hending : splitFirstEnding content = (main,some first))
    (hcolon : ∀ main first, cutMark ['[', '1'] content = some (main,first) →
      main.getLast? ≠ some ':') : Joins main ∧ Joins first := by
  rcases splitFirstEnding_eq_some hending with hbracket | ⟨front,rfl,rfl⟩
  · have hlast := hcolon main first hbracket
    obtain ⟨rfl,-⟩ := (cutMark_eq_some_iff (by decide)).mp hbracket
    rw [List.append_assoc] at hcontent
    obtain ⟨m,hmain,hfirst⟩ := Tail.exists_of_after_append hcontent
    have hplain : Tail.plain.after first = some q := by cases m <;> exact hfirst
    exact ⟨joins_of_getLast? hb hmain hlast,joins_of_after (.inr rfl) hplain hq⟩
  · rw [List.append_cons] at hcontent
    obtain ⟨m,hmain,hfirst⟩ := Tail.exists_of_after_append hcontent
    have hlast : (front ++ ['|']).getLast? ≠ some ':' := by simp
    have hm : m = .plain := by
      obtain ⟨m',-,hbar⟩ := Tail.exists_of_after_append hmain
      cases m' <;> exact (Option.some.inj hbar).symm
    subst hm
    exact ⟨joins_of_getLast? hb hmain hlast,joins_of_after (.inr rfl) hfirst hq⟩

theorem after_dropWhile_blank (t : Text) :
    Tail.plain.after (t.dropWhile (· = ' ')) = Tail.plain.after t := by
  induction t with
  | nil => rfl
  | cons c t ih =>
    by_cases hc : c = ' '
    · subst hc
      rw [List.dropWhile_cons_of_pos (by decide)]
      exact ih
    · rw [List.dropWhile_cons_of_neg (by simpa using hc)]

theorem exists_after_dropSecondEnding (h : Tail.plain.after t = some r) :
    ∃ r', Tail.plain.after (dropSecondEnding t) = some r' := by
  unfold dropSecondEnding
  split
  · exact ⟨r,h⟩
  · exact ⟨r,h⟩
  · have hrest := (after_dropWhile_blank t).trans h
    cases hmark : dropMark? ['[', '2'] (t.dropWhile (· = ' ')) with
    | none => exact ⟨r,h⟩
    | some rest =>
      unfold dropMark? at hmark
      split at hmark
      · next hprefix =>
        obtain ⟨s,hs⟩ := List.isPrefixOf_iff_prefix.mp hprefix
        rw [← hs] at hmark hrest
        cases hmark
        exact ⟨r,hrest⟩
      · cases hmark

/-- Writing out a repeat makes no double mark. -/
theorem splitDoubles_writeOut (hdoubles : splitDoubles t = t) (hends : endsBehindColon t = false)
    (hcut : cutMark closing t = some (before,after)) (hnext : writeOut t before after = .ok u) :
    splitDoubles u = u := by
  obtain ⟨r,hread⟩ := splitDoubles_eq_self_iff.mp hdoubles
  obtain ⟨rfl,hfree⟩ := (cutMark_eq_some_iff (by decide)).mp hcut
  obtain ⟨q,hq,hbefore,hafter⟩ := exists_tail_of_closing hread
  obtain ⟨⟨lead,content⟩,hpart,hnext⟩ := exists_of_bind_ok hnext
  obtain ⟨b,p,hb,hp,hlead,hcontent⟩ := exists_tail_of_repeatedPart hbefore hfree hpart
  -- all that is written behind the lead can stand behind it
  have hrest : ∃ rest, u = lead ++ rest ∧ Follows rest := by
    dsimp only at hnext
    split at hnext
    · next main first hending =>
      have hcolon : ∀ main first, cutMark ['[', '1'] content = some (main,first) →
          main.getLast? ≠ some ':' :=
        fun main first => getLast?_ne_of_endsBehindColon hends hcut hpart
      obtain ⟨hmain,hfirst⟩ := joins_of_splitFirstEnding hb hcontent hq hending hcolon
      obtain ⟨r',hsecond⟩ := exists_after_dropSecondEnding hafter
      exact ⟨_,(Except.ok.inj hnext).symm,
        hmain.follows (hfirst.follows (hmain.follows (follows_of_after hsecond)))⟩
    · have hjoins : Joins content := joins_of_after hb hcontent hq
      exact ⟨_,(Except.ok.inj hnext).symm,
        hjoins.follows (hjoins.follows (follows_of_after hafter))⟩
  obtain ⟨rest,rfl,hrest⟩ := hrest
  obtain ⟨r',hr'⟩ := hrest p hp
  exact splitDoubles_eq_self_iff.mpr ⟨r',Tail.after_append_of hlead hr'⟩

theorem Becomes.splitDoubles {n : Nat} (h : Becomes n t u) (hdoubles : splitDoubles t = t)
    (hends : ∀ m v, Becomes m t v → endsBehindColon v = false) : Repeat.splitDoubles u = u := by
  induction h with
  | refl t => exact hdoubles
  | step hcut hnext hsize h ih =>
    have hnextDoubles := splitDoubles_writeOut hdoubles (hends 0 _ (.refl _)) hcut hnext
    exact ih hnextDoubles fun m v hv => hends (m + 1) v (.step hcut hnext hsize hv)

/-! ## Bar lines for opening marks -/

/-- Writing a bar line for an opening mark makes a new one just if another colon follows it. -/
theorem freeOf_opening_replacePair :
    FreeOf '|' ':' (replacePair '|' ':' ['|'] t) ↔ ¬ opening ++ [':'] <:+: t := by
  have hprefix (t : Text) : [':'] <+: t ↔ t.head? = some ':' := by
    cases t <;> simp [eq_comm]
  induction t using pairInduction (a := '|') (b := ':') with
  | nil => simp [replacePair, replacePairFrom, opening]
  | pair t ih =>
    rw [replacePair_pair, List.singleton_append, freeOf_cons, head?_replacePair_first]
    simp [ih, opening, List.infix_cons_iff, hprefix, not_or]
  | cons c t hpair ih =>
    rw [replacePair_cons _ hpair, freeOf_cons, head?_replacePair_first, List.infix_cons_iff, not_or]
    refine and_congr (iff_of_true hpair ?_) ih
    rintro ⟨rest,hrest⟩
    obtain ⟨rfl,rfl⟩ := List.cons.inj hrest
    exact hpair ⟨rfl,rfl⟩

theorem freeOf_closing_replacePair (h : FreeOf ':' '|' t) :
    FreeOf ':' '|' (replacePair '|' ':' ['|'] t) := by
  induction t using pairInduction (a := '|') (b := ':') with
  | nil => exact freeOf_nil
  | pair t ih =>
    rw [replacePair_pair]
    exact freeOf_cons.mpr ⟨by simp,ih (freeOf_cons.mp (freeOf_cons.mp h).2).2⟩
  | cons c t hpair ih =>
    obtain ⟨hc,ht⟩ := freeOf_cons.mp h
    rw [replacePair_cons _ hpair]
    exact freeOf_cons.mpr ⟨by rwa [head?_replacePair_first],ih ht⟩

theorem Tail.Below.after_replacePair {q' : Tail} (h : q.Below q') (hread : q.after t = some r) :
    ∃ r', q'.after (replacePair '|' ':' ['|'] t) = some r' := by
  induction t using pairInduction (a := '|') (b := ':') generalizing q q' with
  | nil => exact ⟨q',rfl⟩
  | pair t ih =>
    have hcolon : Tail.colon.after t = some r := by cases q <;> exact hread
    have hbelow : Tail.colon.Below .plain := .inr (.inl rfl)
    obtain ⟨r',hr'⟩ := ih hbelow hcolon
    rw [replacePair_pair]
    exact ⟨r',by cases q' <;> exact hr'⟩
  | cons c t hpair ih =>
    obtain ⟨p,hnext,hp⟩ := Option.bind_eq_some_iff.mp hread
    obtain ⟨p',hnext',hbelow⟩ := h.next hnext
    obtain ⟨r',hr'⟩ := ih hbelow hp
    rw [replacePair_cons _ hpair]
    exact ⟨r',Tail.after_cons_of hnext' hr'⟩

/-- Without the colon of an opening mark, only a colon behind it can be read where it could not. -/
theorem exists_after_of_replacePair {q' : Tail} (hfree : ¬ opening ++ [':'] <:+: t)
    (hq : q = q' ∨ q = .colon ∧ q' = .plain ∧ t.head? ≠ some ':')
    (hread : q'.after (replacePair '|' ':' ['|'] t) = some r) : ∃ r', q.after t = some r' := by
  induction t using pairInduction (a := '|') (b := ':') generalizing q q' with
  | nil => exact ⟨q,rfl⟩
  | pair t ih =>
    rw [replacePair_pair] at hread
    have hplain : Tail.plain.after (replacePair '|' ':' ['|'] t) = some r := by
      cases q' <;> exact hread
    have hhead : t.head? ≠ some ':' := by
      intro hhead
      obtain ⟨rest,rfl⟩ := List.head?_eq_some_iff.mp hhead
      exact hfree ⟨[],rest,rfl⟩
    have hrest : ¬ opening ++ [':'] <:+: t :=
      fun hin => hfree (List.infix_cons_iff.mpr (.inr (List.infix_cons_iff.mpr (.inr hin))))
    obtain ⟨r',hr'⟩ := ih (q := .colon) hrest (.inr ⟨rfl,rfl,hhead⟩) hplain
    exact ⟨r',by cases q <;> exact hr'⟩
  | cons c t hpair ih =>
    rw [replacePair_cons _ hpair] at hread
    have hrest : ¬ opening ++ [':'] <:+: t :=
      fun hin => hfree (List.infix_cons_iff.mpr (.inr hin))
    have hsame : q.next c = q'.next c := by
      rcases hq with rfl | ⟨rfl,rfl,hhead⟩
      · rfl
      · have hc : c ≠ ':' := fun hc => hhead (congrArg some hc)
        rw [Tail.next_of_ne _ hc, Tail.next_of_ne _ hc]
        simp [Tail.behindOther]
    obtain ⟨p,hnext,hp⟩ := Option.bind_eq_some_iff.mp hread
    obtain ⟨r',hr'⟩ := ih hrest (.inl rfl) hp
    exact ⟨r',Tail.after_cons_of (hsame.trans hnext) hr'⟩

theorem splitDoubles_iff_of_replacePair :
    splitDoubles t = t ↔ FreeOf '|' ':' (replacePair '|' ':' ['|'] t) ∧
      splitDoubles (replacePair '|' ':' ['|'] t) = replacePair '|' ':' ['|'] t := by
  rw [freeOf_opening_replacePair, splitDoubles_eq_self_iff, splitDoubles_eq_self_iff]
  constructor
  · rintro ⟨r,hr⟩
    refine ⟨?_,(Tail.Below.refl .plain).after_replacePair hr⟩
    rintro ⟨front,back,rfl⟩
    rw [List.append_assoc] at hr
    obtain ⟨p,-,hp⟩ := Tail.exists_of_after_append hr
    cases p <;> cases hp
  · rintro ⟨hfree,r,hr⟩
    exact exists_after_of_replacePair hfree (.inl rfl) hr

/-! ## Whole sections -/

/-- A text without marks and without double marks that are taken apart is written out already. -/
theorem expandSection_of_settled (hclosing : hasMark closing t = false)
    (hopening : hasMark opening t = false) (hdoubles : splitDoubles t = t) :
    expandSection t = .ok t := by
  rw [expandSection_eq_writeOutAll, hdoubles, writeOutAll_eq_ok_iff]
  exact ⟨0,by decide,t,.refl t,hclosing,
    (replacePair_of_freeOf _ (hasMark_eq_false_iff.mp hopening)).symm⟩

/-- A section that is written out has no closing mark left. It comes from a text without closing
marks by writing bar lines for the opening ones, and it has an opening mark just if one in that text
is followed by another colon. If no double mark in that text would be taken apart, and only then,
the section has no opening mark either and no double mark that would be taken apart, and to write it
out once more changes nothing. So it is if the double marks of the section leave none behind when
they are taken apart, and if no first ending that is marked with a bracket comes to stand directly
behind a colon. -/
theorem expandSection_complete {s t : Text} (h : expandSection s = .ok t) :
    hasMark closing t = false ∧
    ∃ n < mostExpansions, ∃ u, Becomes n (splitDoubles s) u ∧ hasMark closing u = false ∧
      t = replacePair '|' ':' ['|'] u ∧
      (hasMark opening t = true ↔ opening ++ [':'] <:+: u) ∧
      (splitDoubles u = u ↔ hasMark opening t = false ∧ splitDoubles t = t) ∧
      (splitDoubles u = u → expandSection t = .ok t) ∧
      (splitDoubles (splitDoubles s) = splitDoubles s →
        (∀ m v, Becomes m (splitDoubles s) v → endsBehindColon v = false) →
        splitDoubles u = u) := by
  rw [expandSection_eq_writeOutAll, writeOutAll_eq_ok_iff] at h
  obtain ⟨n,hn,u,hu,hmark,rfl⟩ := h
  have hclosing : hasMark closing (replacePair '|' ':' ['|'] u) = false :=
    hasMark_eq_false_iff.mpr (freeOf_closing_replacePair (hasMark_eq_false_iff.mp hmark))
  have hopening : hasMark opening (replacePair '|' ':' ['|'] u) = false ↔
      FreeOf '|' ':' (replacePair '|' ':' ['|'] u) := hasMark_eq_false_iff
  have hsettled : splitDoubles u = u ↔ hasMark opening (replacePair '|' ':' ['|'] u) = false ∧
      splitDoubles (replacePair '|' ':' ['|'] u) = replacePair '|' ':' ['|'] u := by
    rw [hopening]
    exact splitDoubles_iff_of_replacePair
  refine ⟨hclosing,n,hn,u,hu,hmark,rfl,?_,hsettled,fun hdoubles => ?_,hu.splitDoubles⟩
  · rw [← not_iff_not, Bool.not_eq_true, hopening]
    exact freeOf_opening_replacePair
  · obtain ⟨hfree,hrest⟩ := hsettled.mp hdoubles
    exact expandSection_of_settled hclosing hfree hrest

/-- A first ending is ended by a double mark, of which the other half is left over. -/
theorem expandSection_complete_double :
    expandSection "|:a[1b::c".toList = .ok "aba|c".toList ∧
      expandSection "aba|c".toList = .ok "aba|c".toList := by
  have hok : expandSection "|:a[1b::c".toList = .ok "aba|c".toList := by decide +kernel
  have hcut : cutMark closing (splitDoubles "|:a[1b::c".toList) =
      some ("|:a[1b".toList,"|:c".toList) := by decide +kernel
  have hnext : writeOut (splitDoubles "|:a[1b::c".toList) "|:a[1b".toList "|:c".toList =
      .ok "aba|:c".toList := by decide +kernel
  have hends : ∀ m v, Becomes m (splitDoubles "|:a[1b::c".toList) v →
      endsBehindColon v = false := by
    intro m v hv
    rcases (becomes_iff hcut).mp hv with ⟨-,rfl⟩ | ⟨m,next,-,hwritten,-,hv⟩
    · decide +kernel
    · obtain rfl := Except.ok.inj (hnext.symm.trans hwritten)
      obtain ⟨-,rfl⟩ := (becomes_iff_of_settled (by decide +kernel)).mp hv
      decide +kernel
  obtain ⟨-,n,-,u,-,-,-,-,-,hagain,hdoubles⟩ := expandSection_complete hok
  exact ⟨hok,hagain (hdoubles (by decide +kernel) hends)⟩

/-- Three colons leave an opening mark behind, and a colon that two endings share makes a double
mark with the one behind the repeat: both are written out further when they are read again. -/
theorem expandSection_complete_colons :
    (expandSection ":::".toList = .ok "|:".toList ∧ hasMark opening "|:".toList = true ∧
      expandSection "|:".toList = .ok "|".toList) ∧
    expandSection "|:ab:[1c:|:d".toList = .ok "ab:cab::d".toList ∧
      expandSection "ab:cab::d".toList = .ok "ab:cabab:cab|d".toList := by
  decide +kernel

end AbcTune.Repeat
