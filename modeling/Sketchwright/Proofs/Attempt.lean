import Sketchwright.Inference.Worklist

/-! How an attempt at inference ends. A run of a compound attempt is a run of its first part and, if
that part gives a value, a run of what follows from the state that it leaves. -/

namespace Sketchwright.Inference

/-- The result of an attempt from a state, and the state that it leaves. -/
def endOf {α : Type} (x : Infer α) (s : State) : Except Stall α × State := x.run s

/-- From the state `s` the attempt `x` ends in the state `s'` with the result `r`. -/
def Ends {α : Type} (x : Infer α) (s : State) (r : Except Stall α) (s' : State) : Prop :=
  endOf x s = (r, s')

section Steps

variable {α β : Type} {s s' : State} {r : Except Stall α}

theorem ends_endOf (x : Infer α) (s : State) : Ends x s (endOf x s).1 (endOf x s).2 := rfl

/-- The result and the last state of an attempt are determined by its first state. -/
theorem Ends.unique {x : Infer α} {r₁ r₂ : Except Stall α} {s₁ s₂ : State}
    (h₁ : Ends x s r₁ s₁) (h₂ : Ends x s r₂ s₂) : r₁ = r₂ ∧ s₁ = s₂ :=
  Prod.mk.inj (h₁.symm.trans h₂)

theorem ends_value {x : Infer α} {a : Except Stall α} {t : State} (hx : endOf x s = (a, t)) :
    Ends x s r s' ↔ r = a ∧ s' = t := by
  rw [Ends, hx, Prod.mk.injEq]
  exact ⟨fun h => ⟨h.1.symm, h.2.symm⟩, fun h => ⟨h.1.symm, h.2.symm⟩⟩

@[simp] theorem ends_pure {a : α} : Ends (pure a) s r s' ↔ r = .ok a ∧ s' = s :=
  ends_value rfl

@[simp] theorem ends_throw {e : Stall} :
    Ends (throw e : Infer α) s r s' ↔ r = .error e ∧ s' = s :=
  ends_value rfl

@[simp] theorem ends_get {r : Except Stall State} : Ends get s r s' ↔ r = .ok s ∧ s' = s :=
  ends_value rfl

@[simp] theorem ends_modify {f : State → State} {r : Except Stall Unit} :
    Ends (modify f) s r s' ↔ r = .ok () ∧ s' = f s :=
  ends_value rfl

theorem endOf_bind (x : Infer α) (f : α → Infer β) (s : State) :
    endOf (x >>= f) s =
      match endOf x s with
      | (.ok a, s₁) => endOf (f a) s₁
      | (.error e, s₁) => (.error e, s₁) := by
  show (ExceptT.bindCont f (endOf x s).1) (endOf x s).2 = _
  rcases endOf x s with ⟨e | a, s₁⟩ <;> rfl

@[simp] theorem ends_bind_ok {x : Infer α} {f : α → Infer β} {b : β} :
    Ends (x >>= f) s (.ok b) s' ↔ ∃ a s₁, Ends x s (.ok a) s₁ ∧ Ends (f a) s₁ (.ok b) s' := by
  unfold Ends
  rw [endOf_bind]
  rcases endOf x s with ⟨e | a, s₁⟩ <;> simp [and_assoc]

@[simp] theorem ends_bind_error {x : Infer α} {f : α → Infer β} {e : Stall} :
    Ends (x >>= f) s (.error e) s' ↔
      Ends x s (.error e) s' ∨ ∃ a s₁, Ends x s (.ok a) s₁ ∧ Ends (f a) s₁ (.error e) s' := by
  unfold Ends
  rw [endOf_bind]
  rcases endOf x s with ⟨e | a, s₁⟩ <;> simp [and_assoc]

@[simp] theorem ends_map_ok {x : Infer α} {f : α → β} {b : β} :
    Ends (f <$> x) s (.ok b) s' ↔ ∃ a, Ends x s (.ok a) s' ∧ b = f a := by
  rw [← bind_pure_comp, ends_bind_ok]
  simp

@[simp] theorem ends_map_error {x : Infer α} {f : α → β} {e : Stall} :
    Ends (f <$> x) s (.error e) s' ↔ Ends x s (.error e) s' := by
  rw [← bind_pure_comp, ends_bind_error]
  simp

@[simp] theorem ends_ite {c : Prop} [Decidable c] {x y : Infer α} :
    Ends (if c then x else y) s r s' ↔ c ∧ Ends x s r s' ∨ ¬c ∧ Ends y s r s' := by
  by_cases h : c <;> simp [h]

end Steps

section Actions

variable {s s' : State}

@[simp] theorem ends_getScope {r : Except Stall Scope} :
    Ends getScope s r s' ↔ r = .ok s.frame.scope ∧ s' = s :=
  ends_value rfl

@[simp] theorem ends_fail {α : Type} {e : Error} {r : Except Stall α} :
    Ends (fail e : Infer α) s r s' ↔ r = .error (.failed e) ∧ s' = s :=
  ends_throw

@[simp] theorem ends_emit {event : Event} {r : Except Stall Unit} :
    Ends (emit event) s r s' ↔ r = .ok () ∧ s' = { s with events := s.events ++ [event] } :=
  ends_modify

@[simp] theorem ends_modifyFrame {f : Frame → Frame} {r : Except Stall Unit} :
    Ends (modifyFrame f) s r s' ↔ r = .ok () ∧ s' = { s with frame := f s.frame } :=
  ends_modify

@[simp] theorem ends_modifyScope {f : Scope → Scope} {r : Except Stall Unit} :
    Ends (modifyScope f) s r s' ↔
      r = .ok () ∧ s' = { s with frame := { s.frame with scope := f s.frame.scope } } :=
  ends_modify

end Actions

end Sketchwright.Inference
