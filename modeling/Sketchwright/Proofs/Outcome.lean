/-! Computations that may fail: a bind gives a value if its first part gives one and what
follows gives one for it. -/

namespace Sketchwright.Outcome

variable {ε α β : Type} {x : Except ε α} {a b : α} {e : ε}

@[simp] theorem bind_eq_ok {f : α → Except ε β} {b : β} :
    x >>= f = .ok b ↔ ∃ a, x = .ok a ∧ f a = .ok b := by
  cases x <;> simp [bind, Except.bind]

@[simp] theorem bind_eq_error {f : α → Except ε β} :
    x >>= f = .error e ↔ x = .error e ∨ ∃ a, x = .ok a ∧ f a = .error e := by
  cases x <;> simp [bind, Except.bind]

@[simp] theorem map_eq_ok {f : α → β} {b : β} : f <$> x = .ok b ↔ ∃ a, x = .ok a ∧ f a = b := by
  cases x <;> simp [Functor.map, Except.map]

@[simp] theorem map_eq_error {f : α → β} : f <$> x = .error e ↔ x = .error e := by
  cases x <;> simp [Functor.map, Except.map]

/-- A mapped error changes no success. -/
@[simp] theorem mapError_eq_ok {ε' : Type} {f : ε → ε'} : x.mapError f = .ok a ↔ x = .ok a := by
  cases x with
  | error e => exact ⟨nofun, nofun⟩
  | ok b => exact ⟨fun h => congrArg _ (Except.ok.inj h), fun h => congrArg _ (Except.ok.inj h)⟩

@[simp] theorem pure_eq_ok : (pure a : Except ε α) = .ok b ↔ a = b := by
  simp [pure, Except.pure]

@[simp] theorem pure_ne_error : ¬(pure a : Except ε α) = .error e := by
  simp [pure, Except.pure]

@[simp] theorem throw_ne_ok : ¬(throw e : Except ε α) = .ok a := by
  simp [throw, throwThe, MonadExceptOf.throw]

@[simp] theorem throw_eq_error {e' : ε} : (throw e : Except ε α) = .error e' ↔ e = e' := by
  simp [throw, throwThe, MonadExceptOf.throw]

@[simp] theorem ite_eq_ok {c : Prop} [Decidable c] {y : Except ε α} :
    (if c then x else y) = .ok a ↔ c ∧ x = .ok a ∨ ¬c ∧ y = .ok a := by
  by_cases h : c <;> simp [h]

@[simp] theorem ite_eq_error {c : Prop} [Decidable c] {y : Except ε α} :
    (if c then x else y) = .error e ↔ c ∧ x = .error e ∨ ¬c ∧ y = .error e := by
  by_cases h : c <;> simp [h]

theorem exists_of_isOk (h : x.isOk = true) : ∃ a, x = .ok a := by
  cases x with
  | error e => cases h
  | ok a => exact ⟨a, rfl⟩

theorem eq_ok_of_toOption (h : x.toOption = some a) : x = .ok a := by
  cases x with
  | error e => cases h
  | ok b => exact congrArg Except.ok (Option.some.inj h)

end Sketchwright.Outcome
