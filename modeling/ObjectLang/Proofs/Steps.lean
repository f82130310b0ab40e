import Mathlib.Order.Defs.Unbundled

/-!
Steps that can fail. A run ends with a value or with an error, and in a state either way: `Keeps`
says what all steps of a run do to the state, and `Ends` how a run ends.
-/

namespace ObjectLang

variable {ε σ α β : Type} {R : σ → σ → Prop} {x : EStateM ε σ α} {f : α → EStateM ε σ β}

/-- The state that a run ends in, with a value or with an error. -/
def finalState : EStateM.Result ε σ α → σ
  | .ok _ s => s
  | .error _ s => s

/-- Every run ends in a state that `R` relates to the state that it started from. -/
def Keeps (R : σ → σ → Prop) (x : EStateM ε σ α) : Prop := ∀ s, R s (finalState (x s))

/-- A run ends with a value and a state in `Q`, or with an error in `E`. -/
def Ends (Q : α → σ → Prop) (E : ε → Prop) : EStateM.Result ε σ α → Prop
  | .ok a s => Q a s
  | .error e _ => E e

theorem pure_apply (a : α) (s : σ) : (pure a : EStateM ε σ α) s = .ok a s := rfl

theorem bind_apply (x : EStateM ε σ α) (f : α → EStateM ε σ β) (s : σ) :
    (x >>= f) s = match x s with
      | .ok a s' => f a s'
      | .error e s' => .error e s' := rfl

theorem map_apply (f : α → β) (x : EStateM ε σ α) (s : σ) :
    (f <$> x) s = match x s with
      | .ok a s' => .ok (f a) s'
      | .error e s' => .error e s' := by
  rw [map_eq_pure_bind, bind_apply]
  cases x s <;> rfl

/-- Two sequences of steps end alike when their first steps do, and the others after them. -/
theorem bind_congr_at {x' : EStateM ε σ α} {f' : α → EStateM ε σ β} {s : σ} (hx : x s = x' s)
    (hf : ∀ a s', x s = .ok a s' → f a s' = f' a s') : (x >>= f) s = (x' >>= f') s := by
  rw [bind_apply, bind_apply, ← hx]
  cases hs : x s with
  | ok a s' => exact hf a s' hs
  | error e s' => rfl

/-- A sequence of two steps ends with a value when both of them do. -/
theorem bind_eq_ok {s t : σ} {b : β} :
    (x >>= f) s = .ok b t ↔ ∃ a s', x s = .ok a s' ∧ f a s' = .ok b t := by
  rw [bind_apply]
  constructor
  · intro h
    split at h
    · next a s' hx => exact ⟨a, s', hx, h⟩
    · simp at h
  · rintro ⟨a, s', hx, hf⟩
    simp [hx, hf]

theorem except_bind_eq_ok {y : Except ε α} {g : α → Except ε β} {b : β} :
    y >>= g = .ok b ↔ ∃ a, y = .ok a ∧ g a = .ok b := by
  cases y <;> simp [bind, Except.bind]

theorem except_bind_error {y : Except ε α} {g : α → Except ε β} {e : ε}
    (h : y >>= g = .error e) : y = .error e ∨ ∃ a, y = .ok a ∧ g a = .error e := by
  cases y with
  | ok a => exact Or.inr ⟨a, rfl, h⟩
  | error e' =>
    cases h
    exact Or.inl rfl

theorem Keeps.mono {S : σ → σ → Prop} (hx : Keeps R x) (hRS : ∀ s t, R s t → S s t) : Keeps S x :=
  fun s => hRS _ _ (hx s)

theorem Keeps.pure [Std.Refl R] (a : α) : Keeps R (pure a : EStateM ε σ α) := fun s => Std.Refl.refl s

theorem Keeps.throw [Std.Refl R] (e : ε) : Keeps R (throw e : EStateM ε σ α) := fun s => Std.Refl.refl s

theorem Keeps.bind [IsTrans σ R] (hx : Keeps R x) (hf : ∀ a, Keeps R (f a)) :
    Keeps R (x >>= f) := by
  intro s
  have h := hx s
  rw [bind_apply]
  split
  · next a s' hs =>
    rw [hs] at h
    exact IsTrans.trans _ _ _ h (hf a s')
  · next e s' hs =>
    rw [hs] at h
    exact h

theorem Keeps.of_ok (hx : Keeps R x) {s s' : σ} {a : α} (h : x s = .ok a s') : R s s' := by
  simpa [h, finalState] using hx s

theorem Keeps.of_error (hx : Keeps R x) {s s' : σ} {e : ε} (h : x s = .error e s') : R s s' := by
  simpa [h, finalState] using hx s

theorem Ends.bind {P : α → σ → Prop} {Q : β → σ → Prop} {E : ε → Prop} {s : σ}
    (hx : Ends P E (x s)) (hf : ∀ a s', x s = .ok a s' → P a s' → Ends Q E (f a s')) :
    Ends Q E ((x >>= f) s) := by
  rw [bind_apply]
  split
  · next a s' hs =>
    rw [hs] at hx
    exact hf a s' hs hx
  · next e s' hs =>
    rw [hs] at hx
    exact hx

theorem Ends.mono {Q Q' : α → σ → Prop} {E : ε → Prop} {r : EStateM.Result ε σ α} (h : Ends Q E r)
    (hQ : ∀ a s, r = .ok a s → Q a s → Q' a s) : Ends Q' E r := by
  cases r with
  | ok a s => exact hQ a s rfl h
  | error e s => exact h

theorem Ends.tolerate {Q : α → σ → Prop} {E E' : ε → Prop} {r : EStateM.Result ε σ α} (h : Ends Q E r)
    (hE : ∀ e, E e → E' e) : Ends Q E' r := by
  cases r with
  | ok a s => exact h
  | error e s => exact hE e h

/-- What a run ends with may be known from two looks at it, and how it fails from one of them. -/
theorem Ends.and {P Q : α → σ → Prop} {E E' : ε → Prop} {r : EStateM.Result ε σ α} (h : Ends P E r)
    (h' : Ends Q E' r) : Ends (fun a s => P a s ∧ Q a s) E r := by
  cases r with
  | ok a s => exact ⟨h, h'⟩
  | error e s => exact h

end ObjectLang
