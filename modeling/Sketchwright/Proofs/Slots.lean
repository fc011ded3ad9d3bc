import Mathlib.Data.List.Forall2
import Sketchwright.Inference.Slots

/-! Slots only fill. What is known of the functions grows while bodies are read: a kind that stands
in a slot stays there, and complete signatures that agree with the slots at the end agree with them
at every earlier moment. -/

namespace Sketchwright.Inference

/-- A slot that may have been filled in the meantime. -/
def SlotGrows (old new : Option Kind) : Prop := old = none ∨ new = old

namespace SlotGrows

theorem refl (slot : Option Kind) : SlotGrows slot slot := .inr rfl

theorem trans {a b c : Option Kind} (h₁ : SlotGrows a b) (h₂ : SlotGrows b c) :
    SlotGrows a c := by
  rcases h₁ with rfl | rfl
  · exact .inl rfl
  · exact h₂

theorem of_some {a b : Option Kind} {k : Kind} (h : SlotGrows a b) (ha : a = some k) :
    b = some k := by
  rcases h with rfl | rfl
  · cases ha
  · exact ha

end SlotGrows

/-- The parameters of one function, of which more may be known later. -/
def ParamsGrow (old new : List (String × Option Kind)) : Prop :=
  List.Forall₂ (fun p q => q.1 = p.1 ∧ SlotGrows p.2 q.2) old new

namespace ParamsGrow

theorem refl : ∀ ps : List (String × Option Kind), ParamsGrow ps ps
  | [] => .nil
  | _ :: ps => .cons ⟨rfl, .refl _⟩ (refl ps)

theorem trans {as bs cs : List (String × Option Kind)} (h₁ : ParamsGrow as bs)
    (h₂ : ParamsGrow bs cs) : ParamsGrow as cs := by
  induction h₁ generalizing cs with
  | nil => cases h₂; exact .nil
  | cons hp _ ih =>
    cases h₂ with
    | cons hq hqs => exact .cons ⟨hq.1.trans hp.1, hp.2.trans hq.2⟩ (ih hqs)

end ParamsGrow

namespace Slots

/-- At a later moment more may be known of a function. -/
structure Grows (old new : Slots) : Prop where
  name : new.name = old.name
  line : new.line = old.line
  params : ParamsGrow old.params new.params
  returns : SlotGrows old.returns new.returns

theorem Grows.refl (s : Slots) : s.Grows s := ⟨rfl, rfl, .refl _, .refl _⟩

theorem Grows.trans {a b c : Slots} (h₁ : a.Grows b) (h₂ : b.Grows c) : a.Grows c :=
  ⟨h₂.name.trans h₁.name, h₂.line.trans h₁.line, h₁.params.trans h₂.params,
    h₁.returns.trans h₂.returns⟩

/-- A complete signature that agrees with what is known. -/
structure Fits (s : Slots) (signature : Signature) : Prop where
  params : List.Forall₂ (fun p k => SlotGrows p.2 (some k)) s.params signature.params
  returns : SlotGrows s.returns (some signature.returns)

theorem Fits.of_grows {a b : Slots} {signature : Signature} (hg : a.Grows b)
    (h : b.Fits signature) : a.Fits signature := by
  refine ⟨?_, hg.returns.trans h.returns⟩
  have hparams : ∀ {ps qs : List (String × Option Kind)} {ks : List Kind}, ParamsGrow ps qs →
      List.Forall₂ (fun p k => SlotGrows p.2 (some k)) qs ks →
        List.Forall₂ (fun p k => SlotGrows p.2 (some k)) ps ks := by
    intro ps qs ks hpq
    induction hpq generalizing ks with
    | nil => intro hq; cases hq; exact .nil
    | cons hp _ ih =>
      intro hq
      cases hq with
      | cons hk hks => exact .cons (hp.2.trans hk) (ih hks)
  exact hparams hg.params h.params

end Slots

namespace Functions

theorem find?_update (fs : Functions) (name other : String) (f : Slots → Slots)
    (hf : ∀ s, (f s).name = s.name) :
    (fs.update name f).find? other =
      if other = name then (fs.find? other).map f else fs.find? other := by
  induction fs with
  | nil => simp [update, find?]
  | cons s fs ih =>
    simp only [update, find?, List.map_cons, List.find?_cons] at ih ⊢
    by_cases hs : s.name = name
    · by_cases ho : s.name = other
      · simp [hs, ← ho, hf]
      · have hne : ¬other = name := fun h => ho (hs.trans h.symm)
        have hb : (name == other) = false := by simpa using fun h => hne h.symm
        simp only [hs, BEq.rfl, if_true, hf, hb, ih, hne, if_false]
    · by_cases ho : s.name = other
      · have hne : ¬other = name := fun h => hs (ho.trans h)
        simp [ho, hne]
      · have hb : (s.name == other) = false := by simpa using ho
        simp only [beq_eq_false_iff_ne.mpr hs, Bool.false_eq_true, if_false, hb, ih]

theorem name_of_find? {fs : Functions} {name : String} {s : Slots} (h : fs.find? name = some s) :
    s.name = name := by
  have := List.find?_some h
  simpa using this

theorem contains_iff {fs : Functions} {name : String} :
    fs.contains name = true ↔ ∃ s, fs.find? name = some s :=
  Option.isSome_iff_exists

/-- The same functions, of which more may be known later. -/
structure Grows (old new : Functions) : Prop where
  none : ∀ {name}, old.find? name = none → new.find? name = none
  some : ∀ {name s}, old.find? name = some s → ∃ t, new.find? name = some t ∧ s.Grows t

theorem Grows.refl (fs : Functions) : fs.Grows fs :=
  ⟨fun h => h, fun h => ⟨_, h, .refl _⟩⟩

theorem Grows.trans {as bs cs : Functions} (h₁ : as.Grows bs) (h₂ : bs.Grows cs) :
    as.Grows cs := by
  refine ⟨fun h => h₂.none (h₁.none h), fun h => ?_⟩
  obtain ⟨t, ht, hst⟩ := h₁.some h
  obtain ⟨u, hu, htu⟩ := h₂.some ht
  exact ⟨u, hu, hst.trans htu⟩

theorem Grows.contains_eq {old new : Functions} (h : old.Grows new) (name : String) :
    new.contains name = old.contains name := by
  unfold contains
  cases hf : old.find? name with
  | none => rw [h.none hf]
  | some s =>
    obtain ⟨t, ht, _⟩ := h.some hf
    rw [ht]
    rfl

theorem grows_update {fs : Functions} {name : String} {f : Slots → Slots}
    (hf : ∀ s, (f s).name = s.name) (hg : ∀ s, fs.find? name = .some s → s.Grows (f s)) :
    fs.Grows (fs.update name f) := by
  refine ⟨fun {other} h => ?_, fun {other s} h => ?_⟩
  · rw [find?_update _ _ _ _ hf, h]
    simp
  · rw [find?_update _ _ _ _ hf, h]
    by_cases ho : other = name
    · subst ho
      exact ⟨f s, by simp, hg s h⟩
    · exact ⟨s, by simp [ho], .refl s⟩

end Functions

/-- The signatures of a program by function name. -/
abbrev Signatures := String → Option Signature

/-- Signatures of the same functions that agree with all that is known of them. -/
structure Functions.Fits (fs : Functions) (signatures : Signatures) : Prop where
  none : ∀ {name}, fs.find? name = none → signatures name = none
  some : ∀ {name s}, fs.find? name = some s → ∃ sig, signatures name = some sig ∧ s.Fits sig

/-- Whatever is known, some complete signatures agree with it. -/
theorem Functions.exists_fits (fs : Functions) : ∃ signatures, fs.Fits signatures := by
  refine ⟨fun name => (fs.find? name).map fun s =>
    ⟨s.params.map fun p => p.2.getD .int, s.returns.getD .void⟩, ⟨fun h => by rw [h]; rfl, ?_⟩⟩
  intro name s hs
  have hslot : ∀ (slot : Option Kind) (default : Kind),
      SlotGrows slot (some (slot.getD default)) := by
    rintro (_ | kind) default
    · exact .inl rfl
    · exact .inr rfl
  refine ⟨_, by rw [hs]; rfl, ?_, hslot _ _⟩
  rw [List.forall₂_map_right_iff, List.forall₂_same]
  exact fun p _ => hslot p.2 .int

theorem Functions.Fits.of_grows {old new : Functions} {signatures : Signatures}
    (hg : old.Grows new) (h : new.Fits signatures) : old.Fits signatures := by
  refine ⟨fun hn => h.none (hg.none hn), fun hs => ?_⟩
  obtain ⟨t, ht, hst⟩ := hg.some hs
  obtain ⟨sig, hsig, hfit⟩ := h.some ht
  exact ⟨sig, hsig, hfit.of_grows hst⟩

end Sketchwright.Inference
