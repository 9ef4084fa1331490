import AbcTune.Proofs.Field.Course
import AbcTune.Tune.Reading

/-! # Fields and directives that are rejected

What a field or a directive says is read before anything is changed, so a rejected one changes
nothing. The key is the exception: it is in force from where its own words have been read, and the
settings behind it may be rejected after that.
-/
namespace AbcTune

/-- What settings are read from. -/
inductive FieldCall where
  | field (token : Token)
  | directive (text : Text) (line : Nat)

/-- The key that a key field leaves behind where it is rejected for the settings behind it. -/
def Token.strayKey? (token : Token) : Option Key :=
  let (keyWords, flags) := FieldState.splitKeyWords (FieldState.plainWords token.text)
  match Attributes.read token.properties flags with
  | .ok _ => none
  | .error _ => Key.read? (Text.join [' '] keyWords)

def FieldCall.strayKey? : FieldCall → Option Key
  | .directive _ _ => none
  | .field token =>
    if token.kind = .field 'K' ∨ token.kind = .inlineField 'K' then token.strayKey? else none

namespace FieldState

variable {s : FieldState}

def call (s : FieldState) : FieldCall → FieldState × Option Diagnostic
  | .field token =>
    match s.applyField token with
    | (s', .ok _) => (s', none)
    | (s', .error d) => (s', some d)
  | .directive text line => s.applyDirective text line

/-- The state with another key for the music to come. -/
def setKey (s : FieldState) (key : Key) : FieldState :=
  { s with context := { s.context with key } }

theorem setKey_self (s : FieldState) : s.setKey s.context.key = s := rfl

theorem setKey_eq_self_iff {key : Key} : s.setKey key = s ↔ key = s.context.key := by
  constructor
  · intro h
    exact congrArg (fun s : FieldState => s.context.key) h
  · rintro rfl
    exact s.setKey_self

/-! ## Fields other than the key -/

/-- If a field is rejected, the state is the one from before. -/
def Keeps (s : FieldState) (p : Applied) : Prop := ∀ problem, p.2 = .error problem → p.1 = s

theorem keeps_accept (s s' : FieldState) : s.Keeps s'.accept := nofun

theorem keeps_reject (s : FieldState) (p : FieldProblem) : s.Keeps (s.reject p) := fun _ _ => rfl

theorem keeps_applyNamed (s : FieldState) {name : Char} (hname : name ≠ 'K') (token : Token) :
    s.Keeps (s.applyNamed name token) := by
  generalize hp : s.applyNamed name token = p
  cases course_of_applyNamed hp with
  | rejected problem => exact s.keeps_reject problem
  | noted | meter | unitLength | tempo | lateTempo | sequence | voice => exact s.keeps_accept _
  | part | switched => exact nofun
  | key hkey => exact absurd hkey hname

theorem keeps_applyDirective (text : Text) (line : Nat)
    (h : (s.applyDirective text line).2 ≠ none) : (s.applyDirective text line).1 = s := by
  rcases s.applyDirective_cases text line with ⟨d,heq⟩ | ⟨voices,-,heq⟩
  · rw [heq]
  · rw [heq] at h
    exact absurd rfl h

/-! ## Keys -/

/-- A key field with a stray key is rejected after the key has come into force, and any other key
field that is rejected changes nothing. -/
theorem applyKey_cases (s : FieldState) (token : Token) :
    (∃ key p, token.strayKey? = some key ∧ s.applyKey token = (s.setKey key).reject p) ∨
      token.strayKey? = none ∧ s.Keeps (s.applyKey token) := by
  have hstray : token.strayKey? = match keySettings token with
      | .ok _ => none
      | .error _ => namedKey? token := rfl
  rw [hstray]
  generalize hp : s.applyKey token = p
  cases course_of_applyKey hp with
  | unknown problem hkey =>
    refine .inr ⟨?_,s.keeps_reject problem⟩
    rw [hkey]
    split <;> rfl
  | stray key problem hkey hsettings =>
    rw [hsettings]
    exact .inl ⟨key,.attribute problem,hkey,rfl⟩
  | applied key a voices hkey hsettings hvoices =>
    rw [hsettings]
    exact .inr ⟨rfl,s.keeps_accept _⟩

/-! ## Calls -/

theorem call_field {token : Token} {name : Char}
    (hkind : token.kind = .field name ∨ token.kind = .inlineField name) :
    s.call (.field token) =
      ((s.applyNamed name token).1,
        match (s.applyNamed name token).2 with
        | .ok _ => none
        | .error p => some (.metadata token.line p)) := by
  have hfield : s.applyField token =
      ((s.applyNamed name token).1,
        (s.applyNamed name token).2.mapError (.metadata token.line)) := by
    unfold applyField
    rcases hkind with hkind | hkind <;> rw [hkind]
  unfold call
  dsimp only
  rw [hfield]
  cases (s.applyNamed name token).2 <;> rfl

/-- Tokens that are no fields are passed over. -/
theorem call_of_not_field {token : Token}
    (h : ¬∃ name, token.kind = .field name ∨ token.kind = .inlineField name) :
    s.call (.field token) = (s,none) := by
  have hfield : s.applyField token = (s,.ok .none) := by
    unfold applyField
    split
    · next name hkind => exact absurd ⟨name,.inl hkind⟩ h
    · next name hkind => exact absurd ⟨name,.inr hkind⟩ h
    · rfl
  unfold call
  dsimp only
  rw [hfield]

theorem keeps_call {token : Token} {name : Char}
    (hkind : token.kind = .field name ∨ token.kind = .inlineField name)
    (h : s.Keeps (s.applyNamed name token)) (hrejected : (s.call (.field token)).2 ≠ none) :
    (s.call (.field token)).1 = s := by
  rw [call_field hkind] at hrejected ⊢
  dsimp only at hrejected ⊢
  split at hrejected
  · exact absurd rfl hrejected
  · next p hp => exact h p hp

/-- A call with a stray key is rejected with that key in force, and any other call that is rejected
changes nothing. -/
theorem call_cases (s : FieldState) (c : FieldCall) :
    (∃ key d, c.strayKey? = some key ∧ s.call c = (s.setKey key,some d)) ∨
      c.strayKey? = none ∧ ((s.call c).2 ≠ none → (s.call c).1 = s) := by
  cases c with
  | directive text line => exact .inr ⟨rfl,s.keeps_applyDirective text line⟩
  | field token =>
    by_cases hkey : token.kind = .field 'K' ∨ token.kind = .inlineField 'K'
    · rw [FieldCall.strayKey?, if_pos hkey]
      rcases s.applyKey_cases token with ⟨key,p,hstray,happly⟩ | ⟨hstray,hkeeps⟩
      · have hnamed : s.applyNamed 'K' token = (s.setKey key).reject p := happly
        refine .inl ⟨key,.metadata token.line p,hstray,?_⟩
        rw [call_field hkey, hnamed]
        rfl
      · exact .inr ⟨hstray,keeps_call hkey hkeeps⟩
    · rw [FieldCall.strayKey?, if_neg hkey]
      refine .inr ⟨rfl,?_⟩
      by_cases hname : ∃ name, token.kind = .field name ∨ token.kind = .inlineField name
      · obtain ⟨name,hkind⟩ := hname
        have hother : name ≠ 'K' := fun h => hkey (h ▸ hkind)
        exact keeps_call hkind (s.keeps_applyNamed hother token)
      · intro hrejected
        rw [call_of_not_field hname] at hrejected
        exact absurd rfl hrejected

/-- A call that is rejected changes the key in force, to its stray key if it has one, and nothing
else. A call with a stray key is always rejected; so a rejected call has no effect exactly if it has
none, or the one that is in force already. -/
theorem call_rejected (s : FieldState) (c : FieldCall) :
    (c.strayKey?.isSome → (s.call c).2.isSome) ∧
      ∀ d, (s.call c).2 = some d →
        (s.call c).1 = s.setKey (c.strayKey?.getD s.context.key) ∧
          ((s.call c).1 = s ↔ ∀ key ∈ c.strayKey?, key = s.context.key) := by
  rcases s.call_cases c with ⟨key,d,hstray,hcall⟩ | ⟨hstray,hkeeps⟩
  · rw [hstray, hcall]
    refine ⟨fun _ => rfl,fun _ _ => ⟨rfl,?_⟩⟩
    rw [setKey_eq_self_iff]
    simp
  · rw [hstray]
    refine ⟨nofun,fun d hd => ?_⟩
    have hsame := hkeeps (hd ▸ nofun)
    exact ⟨hsame,iff_of_true hsame nofun⟩

/-- Where the reading of a source with a header starts. -/
def beforeFields : FieldState := (TuneReading.initial true).fieldState

/-- The clef is understood and the shift behind it is not, and neither the voice nor its clef is
left. -/
theorem call_rejected_voice :
    ∃ (token : Token) (d : Diagnostic),
      Token.tokenize "V:2 clef=bass transpose=200".toList 1 = [token] ∧
      (beforeFields.call (.field token)).2 = some d ∧
      d.message = "Invalid field at line 1: Invalid transpose value '200'" ∧
      (beforeFields.call (.field token)).1 = beforeFields := by
  have hevaluated : (Token.tokenize "V:2 clef=bass transpose=200".toList 1).map (fun token =>
      ((FieldCall.field token).strayKey?.isNone,
        (beforeFields.call (.field token)).2.map Diagnostic.message)) =
      [(true,some "Invalid field at line 1: Invalid transpose value '200'")] := by
    decide +kernel
  obtain ⟨token,htoken,hcall⟩ := List.map_eq_singleton_iff.mp hevaluated
  rw [Prod.mk.injEq, Option.isNone_iff_eq_none] at hcall
  obtain ⟨d,hd,hmessage⟩ := Option.map_eq_some_iff.mp hcall.2
  obtain ⟨-,hrejected⟩ := beforeFields.call_rejected (.field token)
  obtain ⟨-,hiff⟩ := hrejected d hd
  exact ⟨token,d,htoken,hd,hmessage,hiff.mpr (hcall.1 ▸ nofun)⟩

/-- The field is rejected and the header goes on, but from here the key has two sharps. -/
theorem call_rejected_key :
    ∃ (token : Token) (d : Diagnostic),
      Token.tokenize "K:D transpose=200".toList 1 = [token] ∧
      (beforeFields.call (.field token)).2 = some d ∧
      d.message = "Invalid field at line 1: Invalid transpose value '200'" ∧
      (beforeFields.call (.field token)).1.stage = .header ∧
      (beforeFields.call (.field token)).1.heading.key.fifths = 0 ∧
      (beforeFields.call (.field token)).1.context.key.fifths = 2 ∧
      (beforeFields.call (.field token)).1 ≠ beforeFields := by
  have hevaluated : (Token.tokenize "K:D transpose=200".toList 1).map (fun token =>
      let p := beforeFields.call (.field token)
      (p.2.map Diagnostic.message,p.1.stage,p.1.heading.key.fifths,p.1.context.key.fifths)) =
      [(some "Invalid field at line 1: Invalid transpose value '200'",.header,0,2)] := by
    decide +kernel
  obtain ⟨token,htoken,hcall⟩ := List.map_eq_singleton_iff.mp hevaluated
  simp only [Prod.mk.injEq] at hcall
  obtain ⟨hmessage,hstage,hheading,hkey⟩ := hcall
  obtain ⟨d,hd,hmessage⟩ := Option.map_eq_some_iff.mp hmessage
  refine ⟨token,d,htoken,hd,hmessage,hstage,hheading,hkey,fun hsame => ?_⟩
  have hbefore : beforeFields.context.key.fifths = 0 := by decide +kernel
  rw [hsame, hbefore] at hkey
  cases hkey

end FieldState
end AbcTune
