/-! # Faults

A fault is an input on which a tune cannot be read or played at all. It is kept apart from the
problems of a tune, which are reported while reading goes on.
-/
namespace AbcTune

inductive Fault where
  /-- A chord was closed in a voice that does not have its notes. -/
  | missingNote (index : Nat)
  /-- A repeat starts after it ends. -/
  | repeatStart
  /-- The cursor of a player moves without bound. -/
  | endless
  /-- A time is longer than can be counted. -/
  | timeRange
  deriving DecidableEq, Repr

section Results
variable {ε α γ : Type} {x : Except ε α}

theorem ok_bind (a : α) (g : α → Except ε γ) : (Except.ok a >>= g) = g a := rfl

/-- A success of one step after another is a success of both. -/
theorem exists_of_bind_ok {g : α → Except ε γ} {c : γ} (h : (x >>= g) = .ok c) :
    ∃ a, x = .ok a ∧ g a = .ok c := by
  cases x with
  | error e => cases h
  | ok a => exact ⟨a,rfl,h⟩

/-- One step after another fails in the first, or in the second after a success of the first. -/
theorem bind_eq_error_iff {g : α → Except ε γ} {e : ε} :
    (x >>= g) = .error e ↔ x = .error e ∨ ∃ a, x = .ok a ∧ g a = .error e := by
  cases x with
  | error e' =>
    constructor
    · intro h
      cases h
      exact .inl rfl
    · rintro (h | ⟨a,h,-⟩)
      · cases h
        rfl
      · cases h
  | ok a =>
    constructor
    · intro h
      exact .inr ⟨a,rfl,h⟩
    · rintro (h | ⟨b,h,hb⟩)
      · cases h
      · cases h
        exact hb

/-- A list fails at the first of its values that does. -/
theorem mapM_eq_error_iff {f : α → Except ε γ} {xs : List α} {e : ε} :
    xs.mapM f = .error e ↔ ∃ passed x rest, xs = passed ++ x :: rest ∧
      (∀ y ∈ passed, ∃ z, f y = .ok z) ∧ f x = .error e := by
  induction xs with
  | nil =>
    constructor
    · intro h
      cases h
    · rintro ⟨passed,x,rest,h,-⟩
      cases passed <;> cases h
  | cons x xs ih =>
    have hrest : (∃ z, f x = .ok z ∧ (xs.mapM f >>= fun zs => pure (z :: zs)) = .error e) ↔
        (∃ z, f x = .ok z) ∧ xs.mapM f = .error e := by
      constructor
      · rintro ⟨z,hz,h⟩
        rcases bind_eq_error_iff.mp h with h | ⟨zs,-,h⟩
        · exact ⟨⟨z,hz⟩,h⟩
        · cases h
      · rintro ⟨⟨z,hz⟩,h⟩
        exact ⟨z,hz,bind_eq_error_iff.mpr (.inl h)⟩
    rw [List.mapM_cons, bind_eq_error_iff, hrest, ih]
    constructor
    · rintro (h | ⟨hx,passed,y,rest,rfl,hpassed,hy⟩)
      · exact ⟨[],x,xs,rfl,fun _ hy => absurd hy List.not_mem_nil,h⟩
      · exact ⟨x :: passed,y,rest,rfl,List.forall_mem_cons.mpr ⟨hx,hpassed⟩,hy⟩
    · rintro ⟨passed,y,rest,h,hpassed,hy⟩
      cases passed with
      | nil =>
        cases h
        exact .inl hy
      | cons z passed =>
        cases h
        obtain ⟨hz,hpassed⟩ := List.forall_mem_cons.mp hpassed
        exact .inr ⟨hz,passed,y,rest,rfl,hpassed,hy⟩

theorem exists_of_map_ok {f : α → γ} {c : γ} (h : x.map f = .ok c) :
    ∃ a, x = .ok a ∧ f a = c := by
  cases x with
  | error e => cases h
  | ok a => exact ⟨a,rfl,Except.ok.inj h⟩

/-- What holds of the value of a success is read off from evaluating it. -/
theorem exists_of_toOption_map {f : α → γ} {c : γ} (h : x.toOption.map f = some c) :
    ∃ a, x = .ok a ∧ f a = c := by
  cases x with
  | error e => cases h
  | ok a => exact ⟨a,rfl,Option.some.inj h⟩

end Results

end AbcTune
