import Sketchwright.Proofs.Kinds
import Sketchwright.Proofs.Outcome

/-! The call tables that configuration leads to. Whatever is added to the built-in table, the kinds
that it gives are scalar, and the forms of its calls agree with their results and arities. -/

namespace Sketchwright

/-- A rule whose form, result and arity go together. -/
structure CallRule.Sound (rule : CallRule) : Prop where
  fixed : ∀ {kind}, rule.returns = .fixed kind → kind.isScalar = true
  listLength : rule.form = .listLength →
    rule.arity = some 1 ∧ ∃ kind, rule.returns = .fixed kind
  cast : rule.form = .cast → ∃ kind, rule.returns = .fixed kind
  print : rule.form = .print → rule.returns = .void
  promoted : rule.returns = .promoted → ∃ n, rule.arity = some (n + 1)

namespace CallTable

structure Sound (table : CallTable) : Prop where
  calls : ∀ rule ∈ table.calls, rule.Sound
  constants : ∀ entry ∈ table.constants, entry.2.isScalar = true

/-- The tables that any number of extensions, refused ones too, make of the built-in table. -/
inductive Built : CallTable → Prop
  | builtin : Built builtin
  | extend {table : CallTable} (h : Built table) (calls : List CallEntry)
      (constants : List ConstantEntry) : Built (table.extend calls constants).1

theorem call?_mem {table : CallTable} {name : String} {rule : CallRule}
    (h : table.call? name = some rule) : rule ∈ table.calls :=
  List.mem_of_find?_eq_some h

theorem constant?_mem {table : CallTable} {name : String} {kind : Kind}
    (h : table.constant? name = some kind) : (name, kind) ∈ table.constants := by
  unfold constant? at h
  generalize table.constants = entries at h
  induction entries with
  | nil => cases h
  | cons entry entries ih =>
    rw [List.lookup_cons] at h
    by_cases hn : name = entry.1
    · subst hn
      simp only [BEq.rfl, Option.some.injEq] at h
      subst h
      exact List.mem_cons_self ..
    · simp only [beq_eq_false_iff_ne.mpr hn] at h
      exact List.mem_cons_of_mem _ (ih h)

theorem Sound.call {table : CallTable} (h : table.Sound) {name : String} {rule : CallRule}
    (hr : table.call? name = some rule) : rule.Sound :=
  h.calls rule (call?_mem hr)

theorem Sound.constant {table : CallTable} (h : table.Sound) {name : String} {kind : Kind}
    (hk : table.constant? name = some kind) : kind.isScalar = true :=
  h.constants _ (constant?_mem hk)

theorem call?_of_not_known {table : CallTable} {name : String} (h : table.isKnown name = false) :
    table.call? name = none ∧ table.constant? name = none := by
  simpa [isKnown] using h

theorem builtinCalls_sound : ∀ rule ∈ builtinCalls, rule.Sound := by
  intro rule hrule
  simp only [builtinCalls, List.mem_cons, List.not_mem_nil, or_false] at hrule
  rcases hrule with rfl | rfl | rfl | rfl | rfl | rfl | rfl | rfl | rfl | rfl | rfl | rfl | rfl |
      rfl | rfl | rfl | rfl | rfl | rfl | rfl | rfl | rfl | rfl | rfl | rfl | rfl | rfl | rfl |
      rfl <;>
    exact ⟨by simp [Kind.isScalar], by simp, by simp, by simp, by simp⟩

theorem builtin_sound : Sound builtin := by
  refine ⟨builtinCalls_sound, fun entry hentry => ?_⟩
  obtain ⟨name, _, rfl⟩ := List.mem_map.mp hentry
  rfl

/-- A rule that writes a call as a call, whatever its name, is sound if its result is void or
scalar. -/
theorem sound_of_plain {rule : CallRule} (hform : rule.form = .same ∨ ∃ t, rule.form = .rename t)
    (hreturns : rule.returns = .void ∨ ∃ k, rule.returns = .fixed k ∧ k.isScalar = true) :
    rule.Sound := by
  have hkind : ∀ {kind}, rule.returns = .fixed kind → kind.isScalar = true := by
    intro kind hk
    rcases hreturns with h | ⟨k, h, hs⟩
    · rw [h] at hk
      cases hk
    · rw [h] at hk
      cases hk
      exact hs
  have hnotPromoted : rule.returns ≠ .promoted := by
    rcases hreturns with h | ⟨k, h, _⟩ <;> rw [h] <;> exact nofun
  rcases hform with h | ⟨t, h⟩ <;>
    exact ⟨hkind, by simp [h], by simp [h], by simp [h], fun hp => absurd hp hnotPromoted⟩

theorem ruleOf_returns {entry : CallEntry} {rule : CallRule} (h : ruleOf entry = .ok rule) :
    rule.returns = .void ∨ ∃ k, rule.returns = .fixed k ∧ k.isScalar = true := by
  obtain ⟨name, target, _ | kind⟩ := entry
  · obtain rfl := Except.ok.inj h
    exact .inl rfl
  · cases kind with
    | void =>
      obtain rfl := Except.ok.inj h
      exact .inl rfl
    | list element length => cases h
    | _ =>
      obtain rfl := Except.ok.inj h
      exact .inr ⟨_, rfl, rfl⟩

theorem ruleOf_form {entry : CallEntry} {rule : CallRule} (h : ruleOf entry = .ok rule) :
    rule.form = .same ∨ ∃ t, rule.form = .rename t := by
  obtain ⟨name, target, _ | kind⟩ := entry
  case' some => cases kind
  case some.list => cases h
  -- the form depends on the target alone
  all_goals
    obtain rfl := Except.ok.inj h
    cases target with
    | none => exact .inl rfl
    | some target =>
      by_cases ht : target = name
      · exact .inl (if_pos ht)
      · exact .inr ⟨target, if_neg ht⟩

theorem ruleOf_sound {entry : CallEntry} {rule : CallRule} (h : ruleOf entry = .ok rule) :
    rule.Sound :=
  sound_of_plain (ruleOf_form h) (ruleOf_returns h)

theorem addCall_sound {table added : CallTable} {entry : CallEntry} (ht : table.Sound)
    (h : table.addCall entry = .ok added) : added.Sound := by
  simp only [addCall, Outcome.ite_eq_ok, Outcome.bind_eq_ok, Outcome.throw_ne_ok,
    Outcome.pure_eq_ok, false_and, and_false, exists_false, false_or] at h
  obtain ⟨_, rule, hrule, rfl⟩ := h
  refine ⟨fun other hother => ?_, ht.constants⟩
  rcases List.mem_append.mp hother with hold | hnew
  · exact ht.calls other hold
  · rw [List.mem_singleton.mp hnew]
    exact ruleOf_sound hrule

theorem addConstant_sound {table added : CallTable} {entry : ConstantEntry} (ht : table.Sound)
    (h : table.addConstant entry = .ok added) : added.Sound := by
  simp only [addConstant, Outcome.ite_eq_ok, Outcome.bind_eq_ok, Outcome.throw_ne_ok,
    Outcome.pure_eq_ok, false_and, and_false, exists_false, false_or] at h
  obtain ⟨_, hkind, rfl⟩ := h
  refine ⟨ht.calls, fun other hother => ?_⟩
  rcases List.mem_append.mp hother with hold | hnew
  · exact ht.constants other hold
  · rw [List.mem_singleton.mp hnew]
    simpa using hkind

/-- What every addition preserves, adding several entries preserves as well, refused or not. -/
theorem addAll_preserves {α : Type} {add : CallTable → α → Except ConfigError CallTable}
    {P : CallTable → Prop}
    (hadd : ∀ {table added entry}, P table → add table entry = .ok added → P added)
    (entries : List α) {table : CallTable} (h : P table) : P (table.addAll add entries).1 := by
  induction entries generalizing table with
  | nil => exact h
  | cons entry entries ih =>
    unfold addAll
    split
    · next hok => exact ih (hadd h hok)
    · exact h

theorem extend_sound {table : CallTable} (h : table.Sound) (calls : List CallEntry)
    (constants : List ConstantEntry) : (table.extend calls constants).1.Sound := by
  have hcalls : (table.addAll addCall calls).1.Sound :=
    addAll_preserves addCall_sound calls h
  unfold extend
  split
  · next hrefused => simpa [hrefused] using hcalls
  · next hadded =>
    rw [hadded] at hcalls
    exact addAll_preserves addConstant_sound constants hcalls

theorem Built.sound {table : CallTable} (h : Built table) : table.Sound := by
  induction h with
  | builtin => exact builtin_sound
  | extend _ calls constants ih => exact extend_sound ih calls constants

theorem built_of_ofConfig {config : Config} {table : CallTable} (h : ofConfig config = .ok table) :
    Built table := by
  have hbuilt := Built.builtin.extend config.calls config.constants
  unfold ofConfig at h
  split at h
  · next hadded =>
    rw [hadded] at hbuilt
    cases h
    exact hbuilt
  · cases h

end CallTable

end Sketchwright
