import Sketchwright.Inference.Basic
import Sketchwright.Proofs.Effects
import Sketchwright.Proofs.Tables
import Sketchwright.Proofs.Trees

/-! The frame of a body: the kinds that its names have, and how reading an expression changes it.
Reading marks the outer variables of the expression as seen and changes nothing else. -/

namespace Sketchwright.Inference

namespace Scope

/-- The kind that a name has in a body, constants of the runtime standing behind the variables. -/
def kind? (table : CallTable) (s : Scope) (name : String) : Option Kind :=
  match s.meaning name with
  | .own kind | .outer kind => some kind
  | .later _ => none
  | .missing => table.constant? name

/-- The scope after a name is read. -/
def read (s : Scope) (name : String) : Scope :=
  match s.meaning name with
  | .outer _ => s.markSeen name
  | _ => s

def readAll (s : Scope) (names : List String) : Scope := names.foldl read s

/-- The variables hold scalars or lists of scalars. -/
structure Proper (s : Scope) : Prop where
  locals : ∀ v ∈ s.locals, v.2.kind.isStorable = true
  globals : ∀ vs, s.globals = some vs → ∀ v ∈ vs, v.2.kind.isStorable = true

variable {s : Scope} {name : String}

theorem readAll_append (s : Scope) (xs ys : List String) :
    s.readAll (xs ++ ys) = (s.readAll xs).readAll ys :=
  List.foldl_append

theorem read_eq (s : Scope) (name : String) :
    s.read name = s ∨ s.read name = s.markSeen name := by
  unfold read
  split
  · exact .inr rfl
  · exact .inl rfl

/-- What holds of a scope whatever is marked in it holds after reading. -/
theorem readAll_preserves {P : Scope → Prop} (hP : ∀ {s name}, P s → P (s.markSeen name))
    (h : P s) (names : List String) : P (s.readAll names) := by
  induction names generalizing s with
  | nil => exact h
  | cons name names ih =>
    refine ih ?_
    rcases read_eq s name with heq | heq <;> rw [heq]
    · exact h
    · exact hP h

@[simp] theorem meaning_readAll (s : Scope) (names : List String) (x : String) :
    (s.readAll names).meaning x = s.meaning x :=
  readAll_preserves (P := fun t => t.meaning x = s.meaning x) id rfl names

@[simp] theorem kind?_readAll (table : CallTable) (s : Scope) (names : List String) :
    (s.readAll names).kind? table = s.kind? table := by
  funext x
  simp only [kind?, meaning_readAll]

@[simp] theorem isModule_readAll (s : Scope) (names : List String) :
    (s.readAll names).isModule = s.isModule :=
  readAll_preserves (P := fun t => t.isModule = s.isModule) id rfl names

theorem Proper.readAll (h : s.Proper) (names : List String) : (s.readAll names).Proper :=
  readAll_preserves (fun h => ⟨h.locals, h.globals⟩) h names

theorem Proper.meaning (h : s.Proper) {kind : Kind}
    (hm : s.meaning name = .own kind ∨ s.meaning name = .outer kind) : kind.isStorable = true := by
  unfold Scope.meaning at hm
  split at hm
  · next v hv =>
    obtain rfl : v.kind = kind := by simpa using hm
    unfold local? at hv
    split at hv
    · cases hv
    · obtain ⟨_, _, hlocals, _⟩ := List.lookup_eq_some_iff.mp hv
      exact h.locals (name, v) (hlocals ▸ by simp)
  · split at hm
    · next v hv =>
      have hkind : v.kind.isStorable = true := by
        obtain ⟨vs, hvs, hv⟩ := Option.bind_eq_some_iff.mp hv
        obtain ⟨_, _, hglobals, _⟩ := List.lookup_eq_some_iff.mp hv
        exact h.globals vs hvs (name, v) (hglobals ▸ by simp)
      split at hm
      · obtain rfl : v.kind = kind := by simpa using hm
        exact hkind
      · simp at hm
    · simp at hm

theorem Proper.kind? {table : CallTable} (h : s.Proper) (htable : table.Sound) {kind : Kind}
    (hk : s.kind? table name = some kind) : kind.isStorable = true := by
  unfold Scope.kind? at hk
  split at hk
  · next hm => exact h.meaning (.inl (Option.some.inj hk ▸ hm))
  · next hm => exact h.meaning (.inr (Option.some.inj hk ▸ hm))
  · cases hk
  · exact Kind.isStorable_of_isScalar (htable.constant hk)

end Scope

namespace Frame

/-- The frame after some expressions are read. -/
def readAll (fr : Frame) (names : List String) : Frame :=
  { fr with scope := fr.scope.readAll names }

def read (fr : Frame) (e : Expr) : Frame := fr.readAll e.vars

/-- The kinds that fit into a frame. -/
structure Proper (fr : Frame) : Prop where
  scope : fr.scope.Proper
  hoisted : ∀ v ∈ fr.hoisted, v.2.isScalar = true
  returned : ∀ kind, fr.returned = some kind → Returnable kind

theorem readAll_append (fr : Frame) (xs ys : List String) :
    fr.readAll (xs ++ ys) = (fr.readAll xs).readAll ys := by
  simp only [readAll, Scope.readAll_append]

@[simp] theorem readAll_nil (fr : Frame) : fr.readAll [] = fr := rfl

theorem Proper.readAll {fr : Frame} (h : fr.Proper) (names : List String) :
    (fr.readAll names).Proper :=
  ⟨h.scope.readAll names, h.hoisted, h.returned⟩

end Frame

/-- A state in which all kinds are of the sort that belongs in their place. -/
structure State.Proper (s : State) : Prop where
  functions : s.functions.Proper
  frame : s.frame.Proper

end Sketchwright.Inference
