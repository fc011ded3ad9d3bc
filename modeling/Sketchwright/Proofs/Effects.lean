import Sketchwright.Proofs.Attempt
import Sketchwright.Proofs.Kinds
import Sketchwright.Proofs.Slots

/-! What attempts do to the functions of the program, however they end: slots of parameters fill,
the kinds of results stay, and no attempt finds a condition broken that inference relies on. A rule
says so of each attempt together with what it achieves when it succeeds. -/

namespace Sketchwright.Inference

/-- A kind that a function may return. -/
def Returnable (kind : Kind) : Prop := kind = .void ∨ kind.isScalar = true

/-- The kinds in the slots of a function are scalar, or void for a result. -/
structure Slots.Proper (s : Slots) : Prop where
  params : ∀ p ∈ s.params, ∀ kind, p.2 = some kind → kind.isScalar = true
  returns : ∀ kind, s.returns = some kind → Returnable kind

namespace Functions

def Proper (fs : Functions) : Prop := ∀ {name s}, fs.find? name = some s → s.Proper

/-- The slot of parameter number `i` was open and holds `kind` now. -/
def Filled (old new : Functions) (name : String) (i : Nat) (kind : Kind) : Prop :=
  ∃ s t p, old.find? name = some s ∧ s.params[i]? = some (p, none) ∧
    new.find? name = some t ∧ t.params[i]? = some (p, some kind)

theorem not_filled_self (fs : Functions) (name : String) (i : Nat) (kind : Kind) :
    ¬fs.Filled fs name i kind := by
  rintro ⟨s, t, p, hs, hp, ht, hq⟩
  cases hs.symm.trans ht
  cases hp.symm.trans hq

end Functions

theorem ParamsGrow.getElem? {ps qs : List (String × Option Kind)} (h : ParamsGrow ps qs) {i : Nat}
    {p : String × Option Kind} (hp : ps[i]? = some p) :
    ∃ q, qs[i]? = some q ∧ q.1 = p.1 ∧ SlotGrows p.2 q.2 := by
  induction h generalizing i with
  | nil => simp at hp
  | cons hpq _ ih =>
    cases i with
    | zero =>
      simp only [List.getElem?_cons_zero, Option.some.injEq] at hp
      subst hp
      exact ⟨_, rfl, hpq⟩
    | succ i => exact ih hp

/-- What is filled over two stretches is filled in one of them. -/
theorem Functions.Filled.split {fs gs hs : Functions} (h₁ : fs.Grows gs) (h₂ : gs.Grows hs)
    {name : String} {i : Nat} {kind : Kind} (h : fs.Filled hs name i kind) :
    fs.Filled gs name i kind ∨ gs.Filled hs name i kind := by
  obtain ⟨s, u, p, hs, hp, hu, hq⟩ := h
  obtain ⟨t, ht, hst⟩ := h₁.some hs
  obtain ⟨u', hu', htu⟩ := h₂.some ht
  cases hu.symm.trans hu'
  obtain ⟨⟨p', slot⟩, ht', rfl, _⟩ := hst.params.getElem? hp
  cases slot with
  | none => exact .inr ⟨t, u, p', ht, ht', hu, hq⟩
  | some k =>
    obtain ⟨q, hq', _, hslot⟩ := htu.params.getElem? ht'
    cases hq.symm.trans hq'
    cases hslot.of_some rfl
    exact .inl ⟨s, t, p', hs, hp, ht, ht'⟩

/-- Why a slot is filled, under signatures that agree with all that is known. -/
abbrev Reason := Signatures → String → Nat → Kind → Prop

/-- What an attempt may do to the functions: it fills slots of parameters, for a reason. -/
structure Effect (reason : Reason) (old new : Functions) : Prop where
  grows : old.Grows new
  returns : ∀ {name s t}, old.find? name = some s → new.find? name = some t → t.returns = s.returns
  proper : old.Proper → new.Proper
  filled : ∀ {signatures}, new.Fits signatures → ∀ {name i kind}, old.Filled new name i kind →
    reason signatures name i kind

namespace Effect

variable {reason weaker : Reason} {fs gs hs : Functions}

theorem refl : Effect reason fs fs where
  grows := .refl fs
  returns := by
    intro _ s t hs ht
    cases hs.symm.trans ht
    rfl
  proper := id
  filled := fun _ _ _ _ h => absurd h (Functions.not_filled_self _ _ _ _)

theorem trans (h₁ : Effect reason fs gs) (h₂ : Effect reason gs hs) : Effect reason fs hs where
  grows := h₁.grows.trans h₂.grows
  returns := by
    intro _ s u hs hu
    obtain ⟨t, ht, _⟩ := h₁.grows.some hs
    rw [h₂.returns ht hu, h₁.returns hs ht]
  proper := h₂.proper ∘ h₁.proper
  filled := by
    intro signatures hfits _ _ _ h
    rcases h.split h₁.grows h₂.grows with h | h
    · exact h₁.filled (hfits.of_grows h₂.grows) h
    · exact h₂.filled hfits h

theorem mono (h : Effect reason fs gs) (himp : ∀ {signatures}, fs.Fits signatures →
    ∀ {name i kind}, reason signatures name i kind → weaker signatures name i kind) :
    Effect weaker fs gs where
  grows := h.grows
  returns := h.returns
  proper := h.proper
  filled := fun hfits _ _ _ hf => himp (hfits.of_grows h.grows) (h.filled hfits hf)

end Effect

/-- However `x` ends from `s`, it has such an effect; with a value it achieves `Q`, and an error
is no broken condition. -/
def Runs {α : Type} (reason : Reason) (x : Infer α) (s : State) (Q : α → State → Prop) : Prop :=
  ∀ r s', Ends x s r s' → Effect reason s.functions s'.functions ∧
    match r with
    | .ok a => Q a s'
    | .error stall => stall.error.isInternal = false

namespace Runs

variable {α β : Type} {reason weaker : Reason} {s : State} {x : Infer α} {Q : α → State → Prop}

theorem effect {r : Except Stall α} {s' : State} (h : Runs reason x s Q)
    (hends : Ends x s r s') : Effect reason s.functions s'.functions :=
  (h r s' hends).1

theorem ok {a : α} {s' : State} (h : Runs reason x s Q) (hends : Ends x s (.ok a) s') :
    Q a s' :=
  (h _ s' hends).2

theorem error {stall : Stall} {s' : State} (h : Runs reason x s Q)
    (hends : Ends x s (.error stall) s') : stall.error.isInternal = false :=
  (h _ s' hends).2

theorem pure {a : α} (h : Q a s) : Runs reason (Pure.pure a) s Q := by
  intro r s' hends
  obtain ⟨rfl, rfl⟩ := ends_pure.mp hends
  exact ⟨.refl, h⟩

theorem throw {stall : Stall} (h : stall.error.isInternal = false) :
    Runs reason (throw stall : Infer α) s Q := by
  intro r s' hends
  obtain ⟨rfl, rfl⟩ := ends_throw.mp hends
  exact ⟨.refl, h⟩

theorem fail {e : Error} (h : e.isInternal = false) :
    Runs reason (Inference.fail e : Infer α) s Q :=
  throw h

theorem unsupported {line : Nat} {construct : Construct} :
    Runs reason (Inference.unsupported line construct : Infer α) s Q :=
  fail rfl

theorem mismatch {line : Nat} {subject : Subject} {expected found : Trait} :
    Runs reason (Inference.mismatch line subject expected found : Infer α) s Q :=
  fail rfl

theorem unbound {line : Nat} {name : String} {why : Unbound} :
    Runs reason (Inference.unbound line name why : Infer α) s Q :=
  fail rfl

/-- A compound attempt does what its parts do. -/
theorem bind {f : α → Infer β} {goal : β → State → Prop} (hx : Runs reason x s Q)
    (hf : ∀ a s₁, Effect reason s.functions s₁.functions → Q a s₁ →
      Runs reason (f a) s₁ goal) : Runs reason (x >>= f) s goal := by
  intro r s' hends
  cases r with
  | ok b =>
    obtain ⟨a, s₁, hx', hf'⟩ := ends_bind_ok.mp hends
    have heffect := hx.effect hx'
    obtain ⟨hrest, hgoal⟩ := hf a s₁ heffect (hx.ok hx') _ _ hf'
    exact ⟨heffect.trans hrest, hgoal⟩
  | error stall =>
    rcases ends_bind_error.mp hends with hx' | ⟨a, s₁, hx', hf'⟩
    · exact ⟨hx.effect hx', hx.error hx'⟩
    · have heffect := hx.effect hx'
      obtain ⟨hrest, hcalm⟩ := hf a s₁ heffect (hx.ok hx') _ _ hf'
      exact ⟨heffect.trans hrest, hcalm⟩

theorem get_bind {f : State → Infer β} {goal : β → State → Prop} (h : Runs reason (f s) s goal) :
    Runs reason (get >>= f) s goal := by
  refine bind (Q := fun a s₁ => a = s ∧ s₁ = s) ?_ ?_
  · intro r s' hends
    obtain ⟨rfl, rfl⟩ := ends_get.mp hends
    exact ⟨.refl, rfl, rfl⟩
  · rintro _ _ _ ⟨rfl, rfl⟩
    exact h

theorem getScope_bind {f : Scope → Infer β} {goal : β → State → Prop}
    (h : Runs reason (f s.frame.scope) s goal) : Runs reason (getScope >>= f) s goal := by
  refine bind (Q := fun a s₁ => a = s.frame.scope ∧ s₁ = s) ?_ ?_
  · intro r s' hends
    obtain ⟨rfl, rfl⟩ := ends_getScope.mp hends
    exact ⟨.refl, rfl, rfl⟩
  · rintro _ _ _ ⟨rfl, rfl⟩
    exact h

theorem modifyFrame {f : Frame → Frame} {Q : Unit → State → Prop}
    (h : Q () { s with frame := f s.frame }) : Runs reason (Inference.modifyFrame f) s Q := by
  intro r s' hends
  obtain ⟨rfl, rfl⟩ := ends_modifyFrame.mp hends
  exact ⟨.refl, h⟩

theorem modifyScope {f : Scope → Scope} {Q : Unit → State → Prop}
    (h : Q () { s with frame := { s.frame with scope := f s.frame.scope } }) :
    Runs reason (Inference.modifyScope f) s Q :=
  modifyFrame h

theorem emit {event : Event} {Q : Unit → State → Prop}
    (h : Q () { s with events := s.events ++ [event] }) :
    Runs reason (Inference.emit event) s Q := by
  intro r s' hends
  obtain ⟨rfl, rfl⟩ := ends_emit.mp hends
  exact ⟨.refl, h⟩

theorem modify {f : State → State} {Q : Unit → State → Prop}
    (heffect : Effect reason s.functions (f s).functions) (h : Q () (f s)) :
    Runs reason (modify f) s Q := by
  intro r s' hends
  obtain ⟨rfl, rfl⟩ := ends_modify.mp hends
  exact ⟨heffect, h⟩

theorem ite {c : Prop} [Decidable c] {y : Infer α} (hx : c → Runs reason x s Q)
    (hy : ¬c → Runs reason y s Q) : Runs reason (if c then x else y) s Q := by
  by_cases h : c
  · rw [if_pos h]
    exact hx h
  · rw [if_neg h]
    exact hy h

/-- A check that fails, or lets the rest go on from the same state. -/
theorem check {c : Prop} [Decidable c] {bad : Infer Unit} {f : Unit → Infer β}
    {goal : β → State → Prop} (hbad : Runs reason bad s fun _ _ => False)
    (hf : ¬c → Runs reason (f ()) s goal) :
    Runs reason (if c then bad >>= f else f ()) s goal :=
  ite (fun _ => bind hbad fun _ _ _ hfalse => hfalse.elim) hf

theorem imp {goal : α → State → Prop} (h : Runs reason x s Q)
    (himp : ∀ a s', Effect reason s.functions s'.functions → Q a s' → goal a s') :
    Runs reason x s goal := by
  intro r s' hends
  obtain ⟨heffect, hpost⟩ := h r s' hends
  cases r with
  | ok a => exact ⟨heffect, himp a s' heffect hpost⟩
  | error stall => exact ⟨heffect, hpost⟩

theorem because (h : Runs reason x s Q) (himp : ∀ {signatures}, s.functions.Fits signatures →
    ∀ {name i kind}, reason signatures name i kind → weaker signatures name i kind) :
    Runs weaker x s Q :=
  fun r s' hends => ⟨(h.effect hends).mono himp, (h r s' hends).2⟩

end Runs

end Sketchwright.Inference
