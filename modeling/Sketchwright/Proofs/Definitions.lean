import Sketchwright.Proofs.Functions
import Sketchwright.Proofs.Simulation

/-! Function definitions in a sketch. The parameters of a function, the names that it hoists
and those that it declares outside its inner blocks are all different, and its body reads
names as the inferencer did. -/

namespace Sketchwright.Inference

section Declarations

variable {c : Callees} {returns : Option Kind} {fr fr' : Frame}

/-- A declaration binds a name that was not bound. -/
theorem Resolves.declared {stmt stmt' : Stmt} {readings : List Reading}
    (h : Resolves c returns fr stmt stmt' fr' readings) (hwf : fr.Wf c.table) {x : String}
    {kind : Kind} (hdeclared : stmt'.declared? = some (x, kind)) :
    fr'.hoisted = fr.hoisted ∧ (∀ k, fr.scope.meaning x ≠ .own k) ∧
      fr'.scope.meaning x = .own kind := by
  cases h with
  | @first _ line _ value _ _ _ _ _ _ hfree =>
    cases hdeclared
    obtain ⟨hwf₁, _⟩ := hwf.readAll value.vars
    refine ⟨rfl, fun k hk => hfree.not_own k ?_, ?_⟩
    · exact (Scope.meaning_readAll _ _ _).trans hk
    · exact (hwf₁.meaning_declare kind line hfree x).trans (if_pos rfl)
  | inert hstmt => cases stmt <;> first | cases hdeclared | cases hstmt
  | _ => cases hdeclared

/-- The names that a body declares or hoists are new ones. -/
theorem ResolvesAll.distinct {stmts stmts' : List Stmt} {readings : List Reading}
    (h : ResolvesAll c returns fr stmts stmts' fr' readings) (hwf : fr.Wf c.table)
    {names : List String} (hown : ∀ x ∈ names, ∃ kind, fr.scope.meaning x = .own kind)
    (hnodup : (names ++ fr.hoisted.map Prod.fst).Nodup) :
    (names ++ (declaredIn stmts').map Prod.fst ++ fr'.hoisted.map Prod.fst).Nodup := by
  induction stmts generalizing fr stmts' readings names with
  | nil =>
    cases h
    simpa [declaredIn] using hnodup
  | cons stmt stmts ih =>
    cases h with
    | @cons _ _ _ stmt' stmts' fr₁ _ _ _ hhead htail =>
      obtain ⟨hwf₁, hextends⟩ := hhead.extends stmt hwf
      have hown₁ : ∀ x ∈ names, ∃ kind, fr₁.scope.meaning x = .own kind := fun x hx =>
        (hown x hx).imp fun _ => hextends.own
      cases hdeclared : stmt'.declared? with
      | some v =>
        obtain ⟨hhoisted, hnew, hbound⟩ := hhead.declared hwf hdeclared
        have hfresh : v.1 ∉ names ++ fr.hoisted.map Prod.fst := by
          intro hmem
          rcases List.mem_append.mp hmem with hmem | hmem
          · obtain ⟨kind, hkind⟩ := hown _ hmem
            exact hnew kind hkind
          · obtain ⟨w, hw, heq⟩ := List.mem_map.mp hmem
            exact hnew w.2 (heq ▸ hwf.hoisted w hw)
        have hfirst : (names ++ [v.1] ++ fr₁.hoisted.map Prod.fst).Nodup := by
          rw [hhoisted, List.append_assoc, List.singleton_append, List.perm_middle.nodup_iff]
          exact List.nodup_cons.mpr ⟨hfresh, hnodup⟩
        have hown₂ : ∀ x ∈ names ++ [v.1], ∃ kind, fr₁.scope.meaning x = .own kind :=
          List.forall_mem_append.mpr ⟨hown₁, fun x hx => ⟨v.2, List.mem_singleton.mp hx ▸ hbound⟩⟩
        simpa [declaredIn, hdeclared] using ih htail hwf₁ hown₂ hfirst
      | none =>
        obtain ⟨added, hadded, hnew⟩ := hextends.hoisted
        have hfirst : (names ++ fr₁.hoisted.map Prod.fst).Nodup := by
          have hwfNodup := hwf₁.nodup
          rw [hadded, List.map_append] at hwfNodup ⊢
          rw [← List.append_assoc, List.nodup_append]
          refine ⟨hnodup, (List.nodup_append.mp hwfNodup).2.1, fun x hx y hy hxy => ?_⟩
          subst hxy
          obtain ⟨w, hw, rfl⟩ := List.mem_map.mp hy
          rcases List.mem_append.mp hx with hx | hx
          · obtain ⟨kind, hkind⟩ := hown _ hx
            exact hnew w hw kind hkind
          · exact (List.nodup_append.mp hwfNodup).2.2 _ hx _ hy rfl
        simpa [declaredIn, hdeclared] using ih htail hwf₁ hown₁ hfirst

end Declarations

/-- The declarations in scope before a function in line `line`: the globals that are assigned above
it, and no names that are no globals. -/
structure Precedes (globals : Variables) (line : Nat) (context : Context) : Prop where
  above : ∀ {x v}, globals.lookup x = some v → v.line < line → context.lookup x = some v.kind
  missing : ∀ {x}, globals.lookup x = none → context.lookup x = none

section Start

variable {table : CallTable} {globals : Variables} {task : Task} {kinds : List Kind}

theorem lookup_reverse {α : Type} {entries : List (String × α)}
    (hnodup : (entries.map Prod.fst).Nodup) (x : String) :
    entries.reverse.lookup x = entries.lookup x := by
  induction entries with
  | nil => rfl
  | cons entry entries ih =>
    obtain ⟨y, v⟩ := entry
    rw [List.map_cons, List.nodup_cons] at hnodup
    rw [List.reverse_cons, List.lookup_append, ih hnodup.2, List.lookup_cons]
    by_cases hxy : x = y
    · subst hxy
      have hnone : entries.lookup x = none := by
        rw [List.lookup_eq_none_iff]
        rintro w hw
        refine bne_iff_ne.mpr ?_
        rintro rfl
        exact hnodup.1 (List.mem_map.mpr ⟨w, hw, rfl⟩)
      simp [hnone]
    · have hbeq : (x == y) = false := beq_eq_false_iff_ne.mpr hxy
      simp [List.lookup_cons, hbeq]

/-- The parameters with their kinds, as declarations. -/
def Task.context (task : Task) (kinds : List Kind) : Context :=
  (task.head.params.map Param.name).zip kinds

theorem map_zip_sublist (params : List Param) (kinds : List Kind) :
    ((params.zip kinds).map (·.1.name)).Sublist (params.map Param.name) := by
  induction params generalizing kinds with
  | nil => exact .slnil
  | cons param params ih =>
    cases kinds with
    | nil => exact List.nil_sublist _
    | cons kind kinds => exact (ih kinds).cons_cons _

theorem Task.lookup_arguments (hnodup : (task.head.params.map Param.name).Nodup) (x : String) :
    (task.arguments kinds).lookup x = ((task.context kinds).lookup x).map (⟨·, task.line⟩) := by
  have hkeys := hnodup.sublist (map_zip_sublist task.head.params kinds)
  rw [Task.arguments, lookup_reverse (by rwa [List.map_map])]
  unfold Task.context
  clear hkeys hnodup
  generalize task.head.params = params
  induction params generalizing kinds with
  | nil => rfl
  | cons param params ih =>
    cases kinds with
    | nil => rfl
    | cons kind kinds =>
      simp only [List.zip_cons_cons, List.map_cons, List.lookup_cons]
      split
      · rfl
      · exact ih

theorem Task.meaning_start (hnodup : (task.head.params.map Param.name).Nodup) (x : String) :
    (task.start globals kinds).scope.meaning x = match (task.context kinds).lookup x with
      | some kind => .own kind
      | none => (Scope.function globals task.line).outward x := by
  rw [Scope.meaning_eq]
  have hlocal : (task.start globals kinds).scope.local? x =
      ((task.context kinds).lookup x).map (⟨·, task.line⟩) := by
    rw [← Task.lookup_arguments hnodup]
    simp [Task.start, Frame.ofScope, Task.bodyScope_eq, Scope.local?, Scope.isShared,
      Scope.function]
  have houtward : (task.start globals kinds).scope.outward x =
      (Scope.function globals task.line).outward x := by
    simp only [Task.start, Frame.ofScope, Task.bodyScope_eq]
    rfl
  rw [hlocal, houtward]
  cases (task.context kinds).lookup x <;> rfl

theorem Task.start_wf : (task.start globals kinds).Wf table := by
  have hscope : (task.start globals kinds).scope.shared = [] ∧
      (task.start globals kinds).scope.seen = [] := by
    simp only [Task.start, Frame.ofScope, Task.bodyScope_eq]
    exact ⟨rfl, rfl⟩
  refine ⟨?_, ?_, List.forall_mem_nil _, List.forall_mem_nil _, List.nodup_nil⟩
  · rw [hscope.1]
    exact List.forall_mem_nil _
  · rw [hscope.2]
    exact List.forall_mem_nil _

/-- At its start a function and its text agree on all names. -/
theorem Task.start_agrees {context top : Context}
    (hnodup : (task.head.params.map Param.name).Nodup)
    (hprecedes : Precedes globals task.line context) :
    Agrees top (task.start globals kinds) (task.context kinds ++ top ++ context) := by
  have hm := fun x => @Task.meaning_start globals task kinds hnodup x
  have hlookup : ∀ x, (task.context kinds ++ top ++ context).lookup x =
      ((task.context kinds).lookup x).or ((top.lookup x).or (context.lookup x)) := by
    intro x
    rw [List.append_assoc, List.lookup_append, List.lookup_append]
  have hout : ∀ {x}, (∀ kind, (task.start globals kinds).scope.meaning x ≠ .own kind) →
      (task.context kinds).lookup x = none ∧ (task.start globals kinds).scope.meaning x =
        (Scope.function globals task.line).outward x := by
    intro x hx
    rw [hm x] at hx ⊢
    cases h : (task.context kinds).lookup x with
    | some kind =>
      rw [h] at hx
      exact absurd rfl (hx kind)
    | none => exact ⟨rfl, rfl⟩
  refine ⟨fun {x kind} hx => ?_, fun {x kind} hx htop => ?_, fun {x kind} hx htop => ?_,
    fun {x} hx htop => ?_⟩
  · rw [hm x] at hx
    rw [hlookup]
    cases h : (task.context kinds).lookup x with
    | some k =>
      rw [h] at hx
      cases hx
      rfl
    | none =>
      rw [h] at hx
      exact absurd hx (Scope.outward_ne_own _ _ _)
  · rw [hlookup, (hout hx).1, htop]
    rfl
  · obtain ⟨hnone, hmeaning⟩ := hout (Scope.not_own_of_outer hx)
    rw [hlookup, hnone, htop]
    rw [hx] at hmeaning
    unfold Scope.outward at hmeaning
    split at hmeaning
    · next v hv =>
      split at hmeaning
      · next hline =>
        cases hmeaning
        exact hprecedes.above hv hline
      · cases hmeaning
    · cases hmeaning
  · obtain ⟨hnone, hmeaning⟩ := hout (fun k hk => by rw [hx] at hk; cases hk)
    rw [hlookup, hnone, htop]
    rw [hx] at hmeaning
    unfold Scope.outward at hmeaning
    split at hmeaning
    · split at hmeaning <;> cases hmeaning
    · next hv => exact hprecedes.missing hv

/-- The names that a body hoists in all and its result, seen from its end. -/
theorem Ahead.of_last {returns : Option Kind} {last : Frame} (hwf : last.Wf table) :
    Ahead table returns last.hoisted ⟨returns.isSome, (returns <|> last.returned).getD .void⟩
      last := by
  have hnone : ∀ {x}, (∃ kind, last.scope.meaning x = .outer kind) →
      last.hoisted.lookup x = none := by
    rintro x ⟨kind, hkind⟩
    rw [List.lookup_eq_none_iff]
    intro v hv
    refine bne_iff_ne.mpr ?_
    rintro rfl
    have hown := hwf.hoisted v hv
    rw [hkind] at hown
    cases hown
  refine ⟨List.Subset.refl _, hwf.nodup, fun x hx => hnone (hwf.seen x hx),
    fun x hx => hnone (hwf.shared x hx).2, fun x kind hx => ?_, rfl, ?_, ?_⟩
  · obtain ⟨_, _, heq, _⟩ := List.lookup_eq_some_iff.mp hx
    exact hwf.unknown (x, kind) (heq ▸ by simp)
  · rintro kind rfl
    rfl
  · rintro rfl kind hkind
    simp [hkind]

end Start

/-- The names of a function are all different, and its body is read in the sketch as the inferencer
read it. -/
theorem ResolvesTask.simulated {c : Callees} {globals : Variables} {task : Task} {stmt : Stmt}
    {readings : List Reading} {context : Context} (h : ResolvesTask c globals task stmt readings)
    (hnodup : (task.head.params.map Param.name).Nodup)
    (hparams : ∀ {signature}, c.signatures task.head.name = some signature →
      signature.params.length = task.head.params.length)
    (hprecedes : Precedes globals task.line context) :
    ∃ signature hoisted body last,
      stmt = .function task.line task.head (some signature) hoisted body ∧
      c.signatures task.head.name = some signature ∧
      (task.head.params.map Param.name ++ (declaredIn body).map Prod.fst ++
        hoisted.map Prod.fst).Nodup ∧
      Simulated c hoisted ⟨task.returns.isSome, signature.returns⟩
        ((context.inFunction task.head signature hoisted).afterAll body)
        (occurrencesIn (context.inFunction task.head signature hoisted) body) last readings := by
  cases h with
  | @intro signature body fr _ hsig hreturns hbody =>
    have hwf : (task.start globals signature.params).Wf c.table := Task.start_wf
    obtain ⟨hlast, _⟩ := hbody.extends task.body hwf
    have hahead := @Ahead.of_last c.table task.returns fr hlast
    rw [← hreturns] at hahead
    refine ⟨signature, fr.hoisted, body, fr, rfl, hsig, ?_, ?_⟩
    · refine hbody.distinct hwf (fun x hx => ?_) (by simpa [Task.start, Frame.ofScope] using hnodup)
      have hlength : (task.head.params.map Param.name).length ≤ signature.params.length := by
        simp [hparams hsig]
      have hkeys : (task.context signature.params).map Prod.fst = task.head.params.map Param.name :=
        List.map_fst_zip hlength
      rw [← hkeys] at hx
      obtain ⟨v, hv, rfl⟩ := List.mem_map.mp hx
      refine ⟨v.2, ?_⟩
      rw [Task.meaning_start hnodup, lookup_of_mem (hkeys ▸ hnodup) hv]
    · exact hbody.simulated task.body hwf hahead (Task.start_agrees hnodup hprecedes)

end Sketchwright.Inference
