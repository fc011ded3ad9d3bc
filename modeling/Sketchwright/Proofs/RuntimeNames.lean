import Sketchwright.Proofs.Naming

/-! The names of the runtime. What a program defines or assigns must not have the name of a
call or of a constant of the runtime. Inference refuses such names where a function is
defined and where a name is assigned, in the module and in functions, but takes them as
parameters and as loop variables. -/

namespace Sketchwright

/-- How a program binds a name. -/
inductive Role where
  | function
  | parameter
  | global
  | hoisted
  | assigned
  | counter
  deriving DecidableEq, Repr

/-- The names that a statement of the module binds. -/
def Stmt.bindings : Stmt → List (Role × String)
  | .function _ head _ hoisted body =>
    (.function, head.name) :: head.params.map (.parameter, ·.name) ++
      hoisted.map (.hoisted, ·.1) ++ (assignedIn body).map (.assigned, ·) ++
      (loopVarsIn body).map (.counter, ·)
  | .assign _ (.name id) _ _ _ => [(.global, id)]
  | _ => []

def Program.bindings (p : Program) : List (Role × String) := p.statements.flatMap Stmt.bindings

namespace Inference

variable {table : CallTable} {p p' : Program}

/-- The name is none of the runtime, unless it is one of a parameter or of a loop variable. -/
def Clear (table : CallTable) (binding : Role × String) : Prop :=
  binding.1 = .parameter ∨ binding.1 = .counter ∨ table.isKnown binding.2 = false

theorem Tops.clear {stmt stmt' : Stmt} (h : Tops table stmt stmt')
    (hfunction : stmt'.isFunction = false) : ∀ binding ∈ stmt'.bindings, Clear table binding := by
  cases h with
  | assign _ hunknown => exact List.forall_mem_singleton.mpr (.inr (.inr hunknown))
  | other hassign =>
    cases stmt with
    | function => cases hfunction
    | assign => cases hassign
    | _ => exact List.forall_mem_nil _

theorem Settles.clear (htable : table.Sound) (h : (infer table p).1 = .ok p') {task : Task}
    (htask : task ∈ tasksOf p.statements) {s : State} {stmt : Stmt}
    (hsettles : Settles table p p' task s stmt) :
    ∀ binding ∈ stmt.bindings, Clear table binding := by
  obtain ⟨kinds, _, body, last, _, _, rfl, hbinds, _⟩ := hsettles.walks htable h htask
  have hlast : last.Wf table := (hbinds.extends Task.start_wf).1
  have hassigned : assignedIn body = assignedIn task.body := by
    rw [← assignedIn_bareAll, hbinds.bare_eq, assignedIn_bareAll]
  simp only [Stmt.bindings, List.forall_mem_append, List.forall_mem_cons, List.forall_mem_map]
  refine ⟨⟨⟨⟨?_, ?_⟩, ?_⟩, ?_⟩, ?_⟩
  · exact .inr (.inr ((infer_accepts htable h).unknown task htask))
  · exact fun _ _ => .inl rfl
  · exact fun v hv => .inr (.inr (hlast.unknown v hv))
  · intro x hx
    rw [hassigned] at hx
    exact .inr (.inr (hbinds.unknown hx))
  · exact fun _ _ => .inr (.inl rfl)

/-- No function, global, assigned or hoisted name of an accepted program is a call or a constant of
the runtime. -/
theorem infer_runtimeNames (htable : table.Built) (h : (infer table p).1 = .ok p') {role : Role}
    {name : String} (hname : (role, name) ∈ p'.bindings) (hparameter : role ≠ .parameter)
    (hcounter : role ≠ .counter) : table.call? name = none ∧ table.constant? name = none := by
  obtain ⟨stmt, hstmt, hbinding⟩ := List.mem_flatMap.mp hname
  have hclear : Clear table (role, name) := by
    rcases (infer_accepts htable.sound h).tops stmt hstmt with
      ⟨task, htask, s, hsettles⟩ | ⟨hfunction, _, _, htop⟩
    · exact hsettles.clear htable.sound h htask _ hbinding
    · exact htop.clear hfunction _ hbinding
  have hunknown := (hclear.resolve_left hparameter).resolve_left hcounter
  exact CallTable.call?_of_not_known hunknown

/-- A function that hoists a name in a loop, beside a global. -/
def blinking : Program where
  header := []
  statements := [
    .assign 1 (.name "led") (.literal (.int 13)) none .unresolved,
    .function 2 ⟨"blink", [⟨"n", some .int⟩], none, false⟩ none []
      [.loop 3 "i" ⟨none, .name "n", 1⟩ .unresolved
        [.assign 4 (.name "pause") (.binary (.name "i") .mul (.name "led")) none .unresolved,
          .expr 5 (.call "delay" [.name "pause"])]]]

theorem infer_runtimeNames_blinking : ∃ p', (infer .builtin blinking).1 = .ok p' ∧
    (.hoisted, "pause") ∈ p'.bindings ∧
    CallTable.builtin.call? "pause" = none ∧ CallTable.builtin.constant? "pause" = none := by
  obtain ⟨p', h⟩ : ∃ p', (infer .builtin blinking).1 = .ok p' :=
    Outcome.exists_of_isOk (by decide +kernel)
  have hbindings : (infer .builtin blinking).1.toOption.map Program.bindings =
      some [(.global, "led"), (.function, "blink"), (.parameter, "n"), (.hoisted, "pause"),
        (.assigned, "pause"), (.counter, "i")] := by decide +kernel
  have hmem : (.hoisted, "pause") ∈ p'.bindings := by
    rw [h] at hbindings
    rw [Option.some.inj hbindings]
    decide
  exact ⟨p', h, hmem, infer_runtimeNames .builtin h hmem (by decide) (by decide)⟩

/-- A parameter and a loop variable with names of constants. -/
def rebinding : Program where
  header := []
  statements := [.function 1 ⟨"f", [⟨"LOW", some .int⟩], none, false⟩ none []
    [.loop 2 "HIGH" ⟨none, .name "LOW", 1⟩ .unresolved [.pass 3]]]

/-- They are accepted. -/
theorem infer_rebinding : ∃ p', (infer .builtin rebinding).1 = .ok p' ∧
    (.parameter, "LOW") ∈ p'.bindings ∧ (CallTable.builtin.constant? "LOW").isSome = true ∧
    (.counter, "HIGH") ∈ p'.bindings ∧ (CallTable.builtin.constant? "HIGH").isSome = true := by
  obtain ⟨p', h⟩ : ∃ p', (infer .builtin rebinding).1 = .ok p' :=
    Outcome.exists_of_isOk (by decide +kernel)
  have hbindings : (infer .builtin rebinding).1.toOption.map Program.bindings =
      some [(.function, "f"), (.parameter, "LOW"), (.counter, "HIGH")] := by decide +kernel
  rw [h] at hbindings
  refine ⟨p', h, ?_⟩
  rw [Option.some.inj hbindings]
  decide +kernel

end Inference

end Sketchwright
