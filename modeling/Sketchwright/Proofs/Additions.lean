import Sketchwright.Proofs.Tables

/-! What extensions add to a call table. They append: the entries of a table stay where they are, in
front of those that come in, and no name comes in twice. A name that is known keeps its meaning for
this reason, although lookups take the first entry that they find. -/

namespace Sketchwright

/-- The rule that a configured call stands for. -/
def CallEntry.rule (entry : CallEntry) : CallRule where
  name := entry.name
  form :=
    match entry.target with
    | some target => if target = entry.name then .same else .rename target
    | none => .same
  returns :=
    match entry.returns with
    | none | some .void => .void
    | some kind => .fixed kind
  arity := none

/-- A call is refused among these names if its name is one of them, or else if it gives a list. -/
inductive CallEntry.Refused (names : List String) (entry : CallEntry) : ConfigError → Prop
  | known (hname : entry.name ∈ names) : Refused names entry (.duplicateName entry.name)
  | list {element n} (hname : entry.name ∉ names)
    (hreturns : entry.returns = some (.list element n)) :
      Refused names entry (.unsupportedKind entry.name (.list element n))

/-- A constant is refused among these names if its name is one of them, or
else if it is no scalar. -/
inductive ConstantEntry.Refused (names : List String) (entry : ConstantEntry) : ConfigError → Prop
  | known (hname : entry.name ∈ names) : Refused names entry (.duplicateName entry.name)
  | kind (hname : entry.name ∉ names) (hkind : entry.kind.isScalar = false) :
      Refused names entry (.unsupportedKind entry.name entry.kind)

namespace CallTable

/-- The names of all calls and constants. -/
def names (table : CallTable) : List String :=
  table.calls.map CallRule.name ++ table.constants.map Prod.fst

/-- The table with further calls and constants behind its own. -/
def adding (table : CallTable) (calls : List CallEntry)
    (constants : List ConstantEntry) : CallTable where
  calls := table.calls ++ calls.map CallEntry.rule
  constants := table.constants ++ constants.map fun entry => (entry.name, entry.kind)

/-- None of the entries is refused in the face of those before it. -/
def Admits {α : Type} (refused : List α → α → ConfigError → Prop) (entries : List α) : Prop :=
  ∀ before entry after, entries = before ++ entry :: after → ∀ error, ¬refused before entry error

/-- Calls that a table takes one after the other. -/
def AdmitsCalls (table : CallTable) : List CallEntry → Prop :=
  Admits fun before entry => entry.Refused (table.adding before []).names

/-- Constants that a table takes one after the other. -/
def AdmitsConstants (table : CallTable) : List ConstantEntry → Prop :=
  Admits fun before entry => entry.Refused (table.adding [] before).names

/-- What an extension leads to: the table with all entries, or with those before the first one that
is refused, where all calls come before the constants. -/
inductive Extends (table : CallTable) (calls : List CallEntry) (constants : List ConstantEntry) :
    CallTable × Option ConfigError → Prop
  | all (hcalls : table.AdmitsCalls calls)
    (hconstants : (table.adding calls []).AdmitsConstants constants) :
      Extends table calls constants (table.adding calls constants, none)
  | call {before entry after error} (hsplit : calls = before ++ entry :: after)
      (hbefore : table.AdmitsCalls before)
      (hrefused : entry.Refused (table.adding before []).names error) :
      Extends table calls constants (table.adding before [], some error)
  | constant {before entry after error} (hcalls : table.AdmitsCalls calls)
      (hsplit : constants = before ++ entry :: after)
      (hbefore : (table.adding calls []).AdmitsConstants before)
      (hrefused : entry.Refused (table.adding calls before).names error) :
      Extends table calls constants (table.adding calls before, some error)

section Names

variable {table : CallTable} {name : String} {calls : List CallEntry}
  {constants : List ConstantEntry}

theorem call?_isSome_iff :
    (table.call? name).isSome = true ↔ name ∈ table.calls.map CallRule.name := by
  simp [call?, List.find?_isSome]

theorem constant?_isSome_iff :
    (table.constant? name).isSome = true ↔ name ∈ table.constants.map Prod.fst := by
  simp [constant?, List.lookup_isSome_iff]

theorem isKnown_iff : table.isKnown name = true ↔ name ∈ table.names := by
  rw [isKnown, Bool.or_eq_true, call?_isSome_iff, constant?_isSome_iff, names, List.mem_append]

@[simp] theorem adding_nil : table.adding [] [] = table := by
  simp [adding]

@[simp] theorem adding_adding {more : List CallEntry} {others : List ConstantEntry} :
    (table.adding calls constants).adding more others =
      table.adding (calls ++ more) (constants ++ others) := by
  simp [adding]

theorem names_adding_perm (table : CallTable) (calls : List CallEntry)
    (constants : List ConstantEntry) :
    (table.adding calls constants).names.Perm
      (table.names ++ (calls.map CallEntry.name ++ constants.map ConstantEntry.name)) := by
  have hcalls : (calls.map CallEntry.rule).map CallRule.name = calls.map CallEntry.name := by
    simp [CallEntry.rule]
  have hconstants : (constants.map fun entry => (entry.name, entry.kind)).map Prod.fst =
      constants.map ConstantEntry.name := by
    simp
  simp only [names, adding, List.map_append, hcalls, hconstants]
  simp only [List.append_assoc, List.perm_append_left_iff]
  simp only [← List.append_assoc, List.perm_append_right_iff]
  exact List.perm_append_comm

/-- Entries whose names are all new leave what is known as it is. -/
theorem lookups_adding (hnodup : (table.adding calls constants).names.Nodup)
    (hname : name ∈ table.names) :
    (table.adding calls constants).call? name = table.call? name ∧
      (table.adding calls constants).constant? name = table.constant? name := by
  have hnew : name ∉ calls.map CallEntry.name ++ constants.map ConstantEntry.name := by
    rw [(names_adding_perm table calls constants).nodup_iff, List.nodup_append] at hnodup
    intro hmem
    exact hnodup.2.2 name hname name hmem rfl
  rw [List.mem_append, not_or] at hnew
  have hcalls : (calls.map CallEntry.rule).find? (·.name == name) = none := by
    rw [List.find?_eq_none]
    intro rule hrule
    obtain ⟨entry, hentry, rfl⟩ := List.mem_map.mp hrule
    intro heq
    exact hnew.1 (List.mem_map.mpr ⟨entry, hentry, beq_iff_eq.mp heq⟩)
  have hconstants : (constants.map fun entry => (entry.name, entry.kind)).lookup name = none := by
    rw [List.lookup_eq_none_iff]
    intro pair hpair
    obtain ⟨entry, hentry, rfl⟩ := List.mem_map.mp hpair
    rw [bne_iff_ne]
    intro heq
    exact hnew.2 (List.mem_map.mpr ⟨entry, hentry, heq.symm⟩)
  constructor
  · rw [call?, adding, List.find?_append, hcalls, Option.or_none, call?]
  · rw [constant?, adding, List.lookup_append, hconstants, Option.or_none, constant?]

end Names

section Additions

variable {table added : CallTable} {error : ConfigError}

theorem ruleOf_eq {entry : CallEntry} (h : ∀ element n, entry.returns ≠ some (.list element n)) :
    ruleOf entry = .ok entry.rule := by
  obtain ⟨name, target, _ | kind⟩ := entry
  · rfl
  · cases kind with
    | list element n => exact absurd rfl (h element n)
    | _ => rfl

/-- A call is added at the end of the calls, unless it is refused. -/
theorem addCall_cases (table : CallTable) (entry : CallEntry) :
    (∀ error, ¬entry.Refused table.names error) ∧
      table.addCall entry = .ok (table.adding [entry] []) ∨
      ∃ error, entry.Refused table.names error ∧ table.addCall entry = .error error := by
  by_cases hname : entry.name ∈ table.names
  · right
    refine ⟨_, .known hname, ?_⟩
    simp only [addCall, isKnown_iff.mpr hname]
    rfl
  · have hunknown : table.isKnown entry.name = false :=
      Bool.eq_false_iff.mpr fun hknown => hname (isKnown_iff.mp hknown)
    by_cases hlist : ∃ element n, entry.returns = some (.list element n)
    · obtain ⟨element, n, hreturns⟩ := hlist
      right
      refine ⟨_, .list hname hreturns, ?_⟩
      simp only [addCall, hunknown, ruleOf, hreturns]
      rfl
    · simp only [not_exists] at hlist
      left
      constructor
      · intro error hrefused
        cases hrefused with
        | known h => exact hname h
        | list _ hreturns => exact hlist _ _ hreturns
      · simp only [addCall, hunknown, ruleOf_eq hlist]
        simp [adding]

/-- A constant is added at the end of the constants, unless it is refused. -/
theorem addConstant_cases (table : CallTable) (entry : ConstantEntry) :
    (∀ error, ¬entry.Refused table.names error) ∧
      table.addConstant entry = .ok (table.adding [] [entry]) ∨
      ∃ error, entry.Refused table.names error ∧ table.addConstant entry = .error error := by
  by_cases hname : entry.name ∈ table.names
  · right
    refine ⟨_, .known hname, ?_⟩
    simp only [addConstant, isKnown_iff.mpr hname]
    rfl
  · have hunknown : table.isKnown entry.name = false :=
      Bool.eq_false_iff.mpr fun hknown => hname (isKnown_iff.mp hknown)
    cases hkind : entry.kind.isScalar with
    | false =>
      right
      refine ⟨_, .kind hname hkind, ?_⟩
      simp only [addConstant, hunknown, hkind]
      rfl
    | true =>
      left
      constructor
      · intro error hrefused
        cases hrefused with
        | known h => exact hname h
        | kind _ hscalar => simp [hkind] at hscalar
      · simp only [addConstant, hunknown, hkind]
        simp [adding]

theorem nodup_adding_call {entry : CallEntry} (h : table.names.Nodup)
    (hname : entry.name ∉ table.names) :
    (table.adding [entry] []).names.Nodup := by
  rw [(names_adding_perm table [entry] []).nodup_iff]
  simp [List.nodup_append, h]
  intro name hmem heq
  exact hname (heq ▸ hmem)

theorem nodup_adding_constant {entry : ConstantEntry} (h : table.names.Nodup)
    (hname : entry.name ∉ table.names) : (table.adding [] [entry]).names.Nodup := by
  rw [(names_adding_perm table [] [entry]).nodup_iff]
  simp [List.nodup_append, h]
  intro name hmem heq
  exact hname (heq ▸ hmem)

theorem addCall_nodup {entry : CallEntry} (h : table.names.Nodup)
    (hok : table.addCall entry = .ok added) :
    added.names.Nodup := by
  rcases addCall_cases table entry with ⟨haccepted, hadded⟩ | ⟨error, _, herror⟩
  · have hname : entry.name ∉ table.names := fun hname => haccepted _ (.known hname)
    obtain rfl := Except.ok.inj (hadded.symm.trans hok)
    exact nodup_adding_call h hname
  · rw [herror] at hok
    cases hok

theorem addConstant_nodup {entry : ConstantEntry} (h : table.names.Nodup)
    (hok : table.addConstant entry = .ok added) : added.names.Nodup := by
  rcases addConstant_cases table entry with ⟨haccepted, hadded⟩ | ⟨error, _, herror⟩
  · have hname : entry.name ∉ table.names := fun hname => haccepted _ (.known hname)
    obtain rfl := Except.ok.inj (hadded.symm.trans hok)
    exact nodup_adding_constant h hname
  · rw [herror] at hok
    cases hok

theorem extend_nodup (h : table.names.Nodup) (calls : List CallEntry)
    (constants : List ConstantEntry) :
    (table.extend calls constants).1.names.Nodup := by
  have hcalls : (table.addAll addCall calls).1.names.Nodup :=
    addAll_preserves (P := fun table => table.names.Nodup) addCall_nodup calls h
  unfold extend
  split
  · next hrefused => simpa [hrefused] using hcalls
  · next hadded =>
    rw [hadded] at hcalls
    exact addAll_preserves (P := fun table => table.names.Nodup) addConstant_nodup constants hcalls

theorem Built.nodup (h : Built table) : table.names.Nodup := by
  induction h with
  | builtin => decide
  | extend _ calls constants ih => exact extend_nodup ih calls constants

end Additions

section Requests

variable {α : Type} {refused : List α → α → ConfigError → Prop}

theorem Admits.nil : Admits refused [] := by
  intro before entry after hsplit
  simp at hsplit

theorem Admits.snoc {before : List α} {entry : α} (h : Admits refused before)
    (hentry : ∀ error, ¬refused before entry error) : Admits refused (before ++ [entry]) := by
  intro front other after hsplit
  rcases List.eq_nil_or_concat after with rfl | ⟨after, last, rfl⟩
  · obtain ⟨rfl, hlast⟩ := List.append_inj' hsplit rfl
    obtain rfl := List.singleton_inj.mp hlast
    exact hentry
  · rw [List.concat_eq_append, ← List.cons_append, ← List.append_assoc] at hsplit
    exact h front other after (List.append_inj' hsplit rfl).1

/-- Entries that come one after the other are all taken, or those before the first
one that is refused are. -/
theorem addAll_cases {add : CallTable → α → Except ConfigError CallTable}
    (grown : List α → CallTable)
    (hadd : ∀ before entry, (∀ error, ¬refused before entry error) ∧
      add (grown before) entry = .ok (grown (before ++ [entry])) ∨
      ∃ error, refused before entry error ∧ add (grown before) entry = .error error)
    (entries : List α) {before : List α} (hbefore : Admits refused before) :
    Admits refused (before ++ entries) ∧
        (grown before).addAll add entries = (grown (before ++ entries), none) ∨
      ∃ taken entry rest error, before ++ entries = taken ++ entry :: rest ∧ Admits refused taken ∧
        refused taken entry error ∧
          (grown before).addAll add entries = (grown taken, some error) := by
  induction entries generalizing before with
  | nil =>
    left
    simp [addAll, hbefore]
  | cons entry entries ih =>
    rcases hadd before entry with ⟨haccepted, hadded⟩ | ⟨error, hrefused, herror⟩
    · have := ih (hbefore.snoc haccepted)
      simpa only [addAll, hadded, List.append_assoc, List.singleton_append] using this
    · right
      refine ⟨before, entry, entries, error, rfl, hbefore, hrefused, ?_⟩
      simp only [addAll, herror]

variable (table : CallTable)

theorem extend_extends (calls : List CallEntry) (constants : List ConstantEntry) :
    table.Extends calls constants (table.extend calls constants) := by
  have hcalls := addAll_cases (fun before => table.adding before [])
    (fun before entry => by simpa using addCall_cases (table.adding before []) entry)
    calls Admits.nil
  have hconstants := addAll_cases (fun before => (table.adding calls []).adding [] before)
    (fun before entry => by
      simpa using addConstant_cases ((table.adding calls []).adding [] before) entry)
    constants Admits.nil
  simp only [adding_nil, List.nil_append] at hcalls hconstants
  rcases hcalls with ⟨hadmitted, hadded⟩ |
    ⟨taken, entry, rest, error, hsplit, hbefore, hrefused, hadded⟩
  · rcases hconstants with ⟨hothers, hall⟩ |
      ⟨taken, entry, rest, error, hsplit, hbefore, hrefused, hall⟩
    · simp only [extend, hadded, hall]
      simpa using Extends.all hadmitted (by simpa [AdmitsConstants] using hothers)
    · simp only [extend, hadded, hall]
      simpa using Extends.constant hadmitted hsplit (by simpa [AdmitsConstants] using hbefore)
        (by simpa using hrefused)
  · simp only [extend, hadded]
    exact .call hsplit hbefore hrefused

/-- Whatever a request leads to, it is the table with some entries behind its own. -/
theorem Extends.adding_of {calls : List CallEntry} {constants : List ConstantEntry}
    {result : CallTable × Option ConfigError} (h : table.Extends calls constants result) :
    ∃ taken others, taken <+: calls ∧ others <+: constants ∧
      result.1 = table.adding taken others := by
  cases h with
  | all => exact ⟨calls, constants, List.prefix_rfl, List.prefix_rfl, rfl⟩
  | call hsplit => exact ⟨_, [], ⟨_, hsplit.symm⟩, List.nil_prefix, rfl⟩
  | constant _ hsplit => exact ⟨calls, _, List.prefix_rfl, ⟨_, hsplit.symm⟩, rfl⟩

end Requests

/-- A table that extensions have made, refused ones too, has no name twice and only scalars
for the kinds of its results and constants. A further extension puts the entries of the
request behind those of the table, up to the first one that is refused, and leaves the meaning
of each known name as it is. -/
theorem Built.append_only {table : CallTable} (h : Built table) :
    table.names.Nodup ∧
      (∀ rule ∈ table.calls, ∀ kind, rule.returns = .fixed kind → kind.isScalar = true) ∧
      (∀ entry ∈ table.constants, entry.2.isScalar = true) ∧
      ∀ calls constants,
        table.Extends calls constants (table.extend calls constants) ∧
          ∀ name, table.isKnown name = true →
            (table.extend calls constants).1.call? name = table.call? name ∧
              (table.extend calls constants).1.constant? name = table.constant? name := by
  refine ⟨h.nodup, fun rule hrule kind => (h.sound.calls rule hrule).fixed, h.sound.constants, ?_⟩
  intro calls constants
  have hextends := extend_extends table calls constants
  refine ⟨hextends, fun name hknown => ?_⟩
  obtain ⟨taken, others, -, -, hadded⟩ := hextends.adding_of
  have hnodup := (h.extend calls constants).nodup
  rw [hadded] at hnodup ⊢
  exact lookups_adding hnodup (isKnown_iff.mp hknown)

/-- What a request with a call `readTemp` leaves, although its second call has the
name of a built-in one. -/
def leftByRefusal : CallTable :=
  (builtin.extend [⟨"readTemp", some "sensor.readTemperature", some .float⟩, ⟨"delay", none, none⟩]
    [⟨"BUZZER", .int⟩]).1

/-- The call that came in with a refused request has its rule for good. -/
theorem append_only_leftByRefusal :
    Built leftByRefusal ∧ leftByRefusal.isKnown "readTemp" = true ∧ leftByRefusal.names.Nodup ∧
      (leftByRefusal.extend [] [⟨"BUZZER", .int⟩, ⟨"readTemp", .long⟩]).1.call? "readTemp" =
        some ⟨"readTemp", .rename "sensor.readTemperature", .fixed .float, none⟩ := by
  have hbuilt : Built leftByRefusal := Built.builtin.extend _ _
  have hknown : leftByRefusal.isKnown "readTemp" = true := by decide
  obtain ⟨hnodup, -, -, hextend⟩ := hbuilt.append_only
  have hkept := (hextend [] [⟨"BUZZER", .int⟩, ⟨"readTemp", .long⟩]).2 "readTemp" hknown
  refine ⟨hbuilt, hknown, hnodup, ?_⟩
  rw [hkept.1]
  decide

end CallTable

end Sketchwright
