import Sketchwright.CallTable

/-! Facts about kinds: the numeric ones form a chain, and the widest of some numeric kinds is one of
them. A variable holds a scalar or a list of scalars. -/

namespace Sketchwright

namespace Kind

@[simp] theorem accepts_self (k : Kind) : k.accepts k = true := by
  simp [accepts]

theorem isScalar_of_isNumeric {k : Kind} (h : k.isNumeric = true) : k.isScalar = true := by
  cases k <;> first | rfl | cases h

theorem not_list_of_isScalar {k : Kind} (h : k.isScalar = true) : k.isList = false := by
  cases k <;> first | rfl | cases h

theorem ne_void_of_isScalar {k : Kind} (h : k.isScalar = true) : k ≠ .void := by
  rintro rfl
  cases h

/-- Two numeric kinds that accept each other are the same. -/
theorem accepts_antisymm {a b : Kind} (h₁ : a.accepts b = true) (h₂ : b.accepts a = true) :
    a = b := by
  cases a <;> cases b <;> simp_all [accepts, rank?]

/-- Nothing but no value takes no value. -/
theorem eq_void_of_accepts {a : Kind} (h : a.accepts .void = true) : a = .void := by
  cases a <;> simp_all [accepts, rank?]

/-- A scalar fits nothing but a scalar. -/
theorem isScalar_of_accepted {a b : Kind} (h : a.accepts b = true) (hb : b.isScalar = true) :
    a.isScalar = true := by
  cases a <;> cases b <;> simp_all [accepts, rank?, isScalar]

/-- The widest of some numeric kinds. -/
def Widest (ks : List Kind) (k : Kind) : Prop :=
  k ∈ ks ∧ ∀ j ∈ ks, j.isNumeric = true ∧ k.accepts j = true

theorem Widest.unique {ks : List Kind} {a b : Kind} (ha : Widest ks a) (hb : Widest ks b) :
    a = b :=
  accepts_antisymm (ha.2 b hb.1).2 (hb.2 a ha.1).2

theorem Widest.isScalar {ks : List Kind} {k : Kind} (h : Widest ks k) : k.isScalar = true :=
  isScalar_of_isNumeric (h.2 k h.1).1

/-- Of two numeric kinds promotion gives the wider one. -/
theorem promote_widest {a b : Kind} (ha : a.isNumeric = true) (hb : b.isNumeric = true) :
    ∃ k, a.promote b = some k ∧ Widest [a, b] k := by
  cases a <;> cases b <;> simp_all [isNumeric, rank?, promote, Widest, accepts]

theorem accepts_trans {a b c : Kind} (h₁ : a.accepts b = true) (h₂ : b.accepts c = true) :
    a.accepts c = true := by
  cases a <;> cases b <;> cases c <;> simp_all [accepts, rank?]

/-- The widest of some kinds stays the widest when one of them stands for two that it is the wider
of. -/
theorem Widest.expand {ks : List Kind} {a b k j : Kind} (hk : Widest [a, b] k)
    (h : Widest (k :: ks) j) : Widest (a :: b :: ks) j := by
  have hab : k = a ∨ k = b := by simpa using hk.1
  have hj : j.accepts k = true := (h.2 k (List.mem_cons_self ..)).2
  constructor
  · rcases List.mem_cons.mp h.1 with rfl | hmem
    · rcases hab with rfl | rfl <;> simp
    · simp [hmem]
  · intro i hi
    simp only [List.mem_cons] at hi
    rcases hi with rfl | rfl | hi
    · exact ⟨(hk.2 i (by simp)).1, accepts_trans hj (hk.2 i (by simp)).2⟩
    · exact ⟨(hk.2 i (by simp)).1, accepts_trans hj (hk.2 i (by simp)).2⟩
    · exact h.2 i (List.mem_cons_of_mem _ hi)

/-- What a variable may hold: a scalar, or a list of scalars. -/
def isStorable : Kind → Bool
  | .list element _ => element.isScalar
  | k => k.isScalar

theorem isStorable_of_isScalar {k : Kind} (h : k.isScalar = true) : k.isStorable = true := by
  cases k <;> first | rfl | cases h

theorem isScalar_of_isStorable {k : Kind} (h : k.isStorable = true) (hl : k.isList = false) :
    k.isScalar = true := by
  cases k <;> simp_all [isStorable, isScalar, isList]

end Kind

end Sketchwright
