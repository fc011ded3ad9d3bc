import Sketchwright.Proofs.Filling
import Sketchwright.Proofs.Naming

/-! What inference makes of the expressions that it visits. A run that ends well has examined each
of them, from the state of the visit: it has given it a kind, or the items of a list that is
assigned, or has let a call stand that is a statement. -/

namespace Sketchwright.Inference

/-- From this state an expression has been examined, or it is a name that has been bound. -/
inductive Examined (table : CallTable) (s : State) : Expr → Prop
  | value {env line e kind s'} (htable : env.table = table)
    (h : Ends (exprKind env line e) s (.ok kind) s') :
      Examined table s e
  | items {env line items kind s'} (htable : env.table = table)
      (h : Ends (itemsKind env line none items) s (.ok kind) s') : Examined table s (.list items)
  | stands {env line callee args kind s'} (htable : env.table = table)
      (h : Ends (callKind env callee line true args (exprKinds env line args)) s (.ok kind) s') :
      Examined table s (.call callee args)
  | bound {id} : Examined table s (.name id)

/-- A check that lets the rest go on. -/
theorem ends_check {α β : Type} {c : Prop} [Decidable c] {e : Error} {f : α → Infer β} {y : Infer β}
    {s s' : State} {b : β} :
    Ends (if c then fail e >>= f else y) s (.ok b) s' ↔ ¬c ∧ Ends y s (.ok b) s' := by
  by_cases hc : c
  · simp only [hc, if_true, not_true, false_and, iff_false]
    intro h
    obtain ⟨_, _, hfail, _⟩ := ends_bind_ok.mp h
    cases (ends_fail.mp hfail).1
  · simp only [hc, if_false, not_false_iff, true_and]

/-- A visit in an attempt that starts in the state `s`, at which the
expression has been examined. -/
structure Visit.Passes (table : CallTable) (s : State) (visit : Visit) : Prop where
  fills : s.functions.Fills visit.state.functions
  examined : Examined table visit.state visit.expr

section Statements

variable {env : Env} {line : Nat} {s s' : State}

theorem Visit.Passes.of_later {table : CallTable} {s₁ : State} {visit : Visit}
    (h : visit.Passes table s₁) (hfills : s.functions.Fills s₁.functions) : visit.Passes table s :=
  ⟨hfills.trans h.fills, h.examined⟩

theorem Examined.passes {e : Expr} (h : Examined env.table s e) : Visit.Passes env.table s ⟨s, e⟩ :=
  ⟨.refl _, h⟩

theorem assignedKind_examined {value : Expr} {kind : Kind}
    (h : Ends (assignedKind env line value) s (.ok kind) s') :
    Examined env.table s value := by
  unfold assignedKind at h
  split at h
  · rw [ends_get_bind] at h
    obtain ⟨kind, s₁, hitems, _⟩ := ends_bind_ok.mp (ends_check.mp h).2
    exact .items rfl hitems
  · exact .value rfl h

theorem checkStatement_examined {value : Expr}
    (h : Ends (checkStatement env line value) s (.ok ()) s') :
    Examined env.table s value := by
  unfold checkStatement at h
  split at h
  · obtain ⟨kind, s₁, hcall, _⟩ := ends_bind_ok.mp h
    exact .stands rfl hcall
  · obtain ⟨kind, s₁, hvalue, _⟩ := ends_bind_ok.mp h
    exact .value rfl hvalue

theorem checkBound_examined {bound : Expr} (h : Ends (checkBound env line bound) s (.ok ()) s') :
    Examined env.table s bound := by
  obtain ⟨kind, s₁, hvalue, _⟩ := ends_bind_ok.mp h
  exact .value rfl hvalue

theorem boundVisits_pass {bounds : Bounds} (h : Ends (checkBounds env line bounds) s (.ok ()) s') :
    ∀ visit ∈ boundVisits env line bounds s, visit.Passes env.table s := by
  obtain ⟨_ | start, stop, step⟩ := bounds
  · exact List.forall_mem_singleton.mpr (checkBound_examined h).passes
  · obtain ⟨_, s₁, hstart, hstop⟩ := ends_bind_ok.mp h
    simp only [boundVisits, hstart.after_eq]
    refine List.forall_mem_cons.mpr ⟨(checkBound_examined hstart).passes,
      List.forall_mem_singleton.mpr ?_⟩
    exact (checkBound_examined hstop).passes.of_later (inherited_fills.checkBound start hstart)

theorem assignName_pass {id : String} {value : Expr} {declared : Option Kind} {b binding : Binding}
    (h : Ends (assignName env id value declared line) s (.ok binding) s') :
    ∀ visit ∈ visits env s (.assign line (.name id) value declared b),
      visit.Passes env.table s := by
  simp only [visits, h.after_eq]
  obtain ⟨_, s₁, hcheck, hrest⟩ := ends_bind_ok.mp h
  have hassignable : Runs NoReason (checkAssignable env id line) s _ := checkAssignable_runs
  obtain ⟨rfl, _⟩ := hassignable.ok hcheck
  obtain ⟨kind, s₂, hvalue, _⟩ := ends_bind_ok.mp hrest
  refine List.forall_mem_cons.mpr ⟨(assignedKind_examined hvalue).passes,
    List.forall_mem_singleton.mpr ?_⟩
  exact ⟨inherited_fills.assignName value h, .bound⟩

theorem assignElement_pass {list : String} {position value : Expr} {declared : Option Kind}
    {b binding : Binding}
    (h : Ends (assignElement env list position value line) s (.ok binding) s') :
    ∀ visit ∈ visits env s (.assign line (.element list position) value declared b),
      visit.Passes env.table s := by
  obtain ⟨scope, s₀, hscope, hrest⟩ := ends_bind_ok.mp h
  obtain ⟨-, rfl⟩ := ends_getScope.mp hscope
  obtain ⟨element, s₁, helement, hrest⟩ := ends_bind_ok.mp (ends_check.mp hrest).2
  obtain ⟨index, s₂, hindex, hrest⟩ := ends_bind_ok.mp hrest
  obtain ⟨hinteger, hrest⟩ := ends_check.mp hrest
  obtain ⟨kind, s₃, hvalue, _⟩ := ends_bind_ok.mp hrest
  have hread : Ends (do let _ ← elementKind env list line; exprKind env line position) s₀
      (.ok index) s₂ :=
    ends_bind_ok.mpr ⟨element, s₁, helement, hindex⟩
  have hposition : Ends (exprKind env line (.index list position)) s₀ (.ok element) s₂ := by
    refine ends_bind_ok.mpr ⟨element, s₁, helement, ends_bind_ok.mpr ⟨index, s₂, hindex, ?_⟩⟩
    exact ends_check.mpr ⟨hinteger, ends_pure.mpr ⟨rfl, rfl⟩⟩
  simp only [visits, hread.after_eq]
  refine List.forall_mem_cons.mpr ⟨(Examined.value rfl hposition).passes,
    List.forall_mem_singleton.mpr ?_⟩
  exact (Examined.value rfl hvalue).passes.of_later
    (inherited_fills.exprKind (.index list position) hposition)

mutual

/-- What inference visits in a statement that it accepts has been examined. -/
theorem visits_pass (stmt : Stmt) {s s' : State} {found : Stmt}
    (h : Ends (inferStmt env stmt) s (.ok found) s') :
    ∀ visit ∈ visits env s stmt, visit.Passes env.table s := by
  cases stmt with
  | function | global | comment | blank | pass | stop | skip => exact List.forall_mem_nil _
  | assign line target value declared b =>
    obtain ⟨binding, s₁, hassign, _⟩ := ends_bind_ok.mp h
    cases target with
    | name id => exact assignName_pass hassign
    | element list position => exact assignElement_pass hassign
  | conditional line condition thenBody elseBody =>
    simp only [inferStmt, ends_bind_ok] at h
    obtain ⟨_, s₁, hcondition, _, s₂, henter, thenBody₁, s₃, hthen, elseBody₁, s₄, helse, _⟩ := h
    have hinner : Ends (do checkCondition env line condition; enterBlock) s (.ok ()) s₂ :=
      ends_bind_ok.mpr ⟨_, s₁, hcondition, henter⟩
    have hfills : s.functions.Fills s₂.functions :=
      (inherited_fills.bind (inherited_fills.checkCondition condition) fun _ =>
        inherited_fills.modifyFrame _ :
        Relates Functions.Fills _) hinner
    have hfills₃ : s₂.functions.Fills s₃.functions := (inherited_fills.inferBlock thenBody :) hthen
    simp only [visits, hinner.after_eq, hthen.after_eq]
    refine List.forall_mem_cons.mpr ⟨?_, List.forall_mem_append.mpr ⟨?_, ?_⟩⟩
    · obtain ⟨kind, s₀, hvalue, _⟩ := ends_bind_ok.mp hcondition
      exact (Examined.value rfl hvalue).passes
    · exact fun visit hvisit => (visitsAll_pass thenBody hthen visit hvisit).of_later hfills
    · exact fun visit hvisit =>
        (visitsAll_pass elseBody helse visit hvisit).of_later (hfills.trans hfills₃)
  | loop line var bounds b body =>
    simp only [inferStmt, ends_bind_ok] at h
    obtain ⟨_, s₁, hbounds, binding, s₂, hbind, _, s₃, henter, _, s₄, hloop, body', s₅, hbody, _⟩ :=
      h
    have hbound : Ends (do checkBounds env line bounds; bindLoopVar var line) s (.ok binding) s₂ :=
      ends_bind_ok.mpr ⟨_, s₁, hbounds, hbind⟩
    have hinner : Ends (do enterBlock; enterLoop var) s₂ (.ok ()) s₄ :=
      ends_bind_ok.mpr ⟨_, s₃, henter, hloop⟩
    have hfills : s.functions.Fills s₂.functions :=
      (inherited_fills.bind (inherited_fills.checkBounds bounds) fun _ =>
        inherited_fills.bindLoopVar :
        Relates Functions.Fills _) hbound
    have hfills₄ : s₂.functions.Fills s₄.functions :=
      (inherited_fills.bind (inherited_fills.modifyFrame _) fun _ => inherited_fills.modifyFrame _ :
        Relates Functions.Fills _) hinner
    simp only [visits, hbound.after_eq, hinner.after_eq]
    refine List.forall_mem_append.mpr
      ⟨boundVisits_pass hbounds, List.forall_mem_cons.mpr ⟨⟨hfills, .bound⟩, ?_⟩⟩
    exact fun visit hvisit =>
      (visitsAll_pass body hbody visit hvisit).of_later (hfills.trans hfills₄)
  | expr line value =>
    obtain ⟨_, s₁, hvalue, _⟩ := ends_bind_ok.mp h
    exact List.forall_mem_singleton.mpr (checkStatement_examined hvalue).passes
  | give line value =>
    obtain ⟨_, s₁, hreturn, _⟩ := ends_bind_ok.mp h
    obtain ⟨kind, s₂, hkind, _⟩ := ends_bind_ok.mp hreturn
    cases value with
    | none => exact List.forall_mem_nil _
    | some value => exact List.forall_mem_singleton.mpr (Examined.value rfl hkind).passes

theorem visitsAll_pass (stmts : List Stmt) {s s' : State} {found : List Stmt}
    (h : Ends (inferBlock env stmts) s (.ok found) s') :
    ∀ visit ∈ visitsAll env s stmts, visit.Passes env.table s := by
  cases stmts with
  | nil => exact List.forall_mem_nil _
  | cons stmt stmts =>
    obtain ⟨stmt', s₁, hhead, hrest⟩ := ends_bind_ok.mp h
    obtain ⟨stmts', s₂, htail, _⟩ := ends_bind_ok.mp hrest
    have hfills : s.functions.Fills s₁.functions := (inherited_fills.inferStmt stmt :) hhead
    simp only [visitsAll, hhead.after_eq]
    refine List.forall_mem_append.mpr ⟨visits_pass stmt hhead, fun visit hvisit => ?_⟩
    exact (visitsAll_pass stmts htail visit hvisit).of_later hfills

end

end Statements

section Programs

variable {table : CallTable} {p p' : Program} {task : Task} {s s' : State}

theorem moduleVisits_pass {stmts found : List Stmt}
    (h : Ends (inferGlobals table stmts) s (.ok found) s') :
    ∀ visit ∈ moduleVisits table s stmts, visit.Passes table s := by
  induction stmts generalizing s found with
  | nil => exact List.forall_mem_nil _
  | cons stmt stmts ih =>
    obtain ⟨stmt', found', s₁, -, hhead, htail⟩ := ends_inferGlobals_cons h
    unfold moduleVisits
    split at hhead
    · next hassign =>
      rw [if_pos hassign, hhead.after_eq]
      have hfills : s.functions.Fills s₁.functions := (inherited_fills.inferStmt stmt :) hhead
      refine List.forall_mem_append.mpr ⟨visits_pass stmt hhead, fun visit hvisit => ?_⟩
      exact (ih htail visit hvisit).of_later hfills
    · next hassign =>
      obtain ⟨-, rfl⟩ := hhead
      rw [if_neg hassign]
      exact ih htail

/-- Every expression in an assignment of the module is visited. -/
theorem moduleVisits_cover (stmts : List Stmt) (s : State) : ∀ stmt ∈ stmts, stmt.isAssign = true →
    ∀ e ∈ stmt.exprs, ∃ visit ∈ moduleVisits table s stmts, visit.expr = e := by
  induction stmts generalizing s with
  | nil => exact List.forall_mem_nil _
  | cons head stmts ih =>
    intro stmt hstmt hassign e he
    unfold moduleVisits
    rcases List.mem_cons.mp hstmt with rfl | hstmt
    · rw [if_pos hassign]
      obtain ⟨visit, hvisit, hexpr⟩ : ∃ visit ∈ visits ⟨table, none⟩ s stmt, visit.expr = e := by
        cases stmt with
        | assign line target value declared b =>
          cases target with
          | name id =>
            obtain rfl := List.mem_singleton.mp he
            exact ⟨_, List.mem_cons_self, rfl⟩
          | element list position =>
            rcases List.mem_pair.mp he with rfl | rfl
            · exact ⟨_, List.mem_cons_self, rfl⟩
            · exact ⟨_, List.mem_cons_of_mem _ List.mem_cons_self, rfl⟩
        | _ => cases hassign
      exact ⟨visit, List.mem_append_left _ hvisit, hexpr⟩
    · split
      · obtain ⟨visit, hvisit, hexpr⟩ := ih _ stmt hstmt hassign e he
        exact ⟨visit, List.mem_append_right _ hvisit, hexpr⟩
      · exact ih _ stmt hstmt hassign e he

/-- The attempt that settles a function has examined what it visits. -/
theorem Settles.passes (htable : table.Sound) (h : (infer table p).1 = .ok p')
    (htask : task ∈ tasksOf p.statements) {stmt : Stmt}
    (hsettles : Settles table p p' task s stmt) :
    ∀ visit ∈ task.visits table (globals table p) s, visit.Passes table s := by
  obtain ⟨slots, hslots, _⟩ := hsettles.slots htable h htask
  obtain ⟨s', hends⟩ := hsettles.ends
  obtain ⟨body, s₁, ⟨_, hbody⟩, _⟩ := ends_inferFunction_ok hslots hends
  intro visit hvisit
  rw [Task.visits, show s.functions.find? task.head.name = some slots from hslots] at hvisit
  have hpasses := visitsAll_pass task.body hbody visit hvisit
  exact ⟨hpasses.fills, hpasses.examined⟩

/-- Every expression of a settled function is visited. -/
theorem Settles.covers (htable : table.Sound) (h : (infer table p).1 = .ok p')
    (htask : task ∈ tasksOf p.statements) {stmt : Stmt}
    (hsettles : Settles table p p' task s stmt) :
    ∀ e ∈ exprsIn task.body, ∃ visit ∈ task.visits table (globals table p) s, visit.expr = e := by
  intro e he
  obtain ⟨_, _, _, _, readings, _, _, hbinds, hsees⟩ := hsettles.walks htable h htask
  obtain ⟨reading, hreading, rfl⟩ := hbinds.covers e he
  obtain ⟨visit, hvisit, hsame⟩ := exists_of_forall₂ hsees.flip hreading
  exact ⟨visit, hvisit, hsame.expr⟩

end Programs

end Sketchwright.Inference
