import Sketchwright.Proofs.Callees
import Sketchwright.Proofs.Examination

/-! What calls call. A callee is looked up among the functions of the program, then among the calls
of the runtime, and only a name that is neither must have no meaning where it is called. A variable
with a name of the other two kinds is therefore called as if it were not there. Of the variables
that have such names, no global is one: only what a function binds itself. -/

namespace Sketchwright

namespace Inference

/-- The callee is a function of the program, which the module does not call, a call of the runtime,
or a name that means nothing. -/
def State.Callable (table : CallTable) (s : State) (callee : String) : Prop :=
  (s.functions.contains callee = true ∧ s.frame.scope.isModule = false) ∨
    (table.call? callee).isSome = true ∨ s.frame.scope.meaning callee = .missing

/-- An attempt that ends well has found these names callable where it began. -/
def Calls (table : CallTable) {α : Type} (x : Infer α) (callees : List String) : Prop :=
  ∀ ⦃s a s'⦄, Ends x s (.ok a) s' → ∀ callee ∈ callees, s.Callable table callee

theorem Functions.Alike.contains_eq {fs gs : Functions} (h : fs.Alike gs) (name : String) :
    gs.contains name = fs.contains name := by
  have hname := congrArg Option.isSome (h name)
  simpa [Functions.contains] using hname

section Combinators

variable {table : CallTable} {α β : Type} {x : Infer α} {f : α → Infer β}
  {names callees more : List String}

/-- Reading makes no difference to what can be called. -/
theorem Reads.callable (h : Reads table x names) {s s' : State} {a : α}
    (hends : Ends x s (.ok a) s') {callee : String} (hcallable : s'.Callable table callee) :
    s.Callable table callee := by
  have hframe : s'.frame = s.frame.readAll names := h.frame hends
  unfold State.Callable at hcallable
  rw [(h.keeps s hends).contains_eq, hframe] at hcallable
  simpa [State.Callable, Frame.readAll] using hcallable

namespace Calls

theorem nil : Calls table x [] := fun _ _ _ _ => List.forall_mem_nil _

theorem fail {e : Error} : Calls table (Inference.fail e : Infer α) callees := by
  intro s a s' h
  cases (ends_fail.mp h).1

theorem append (h : Calls table x callees) (h' : Calls table x more) :
    Calls table x (callees ++ more) :=
  fun _ _ _ hends => List.forall_mem_append.mpr ⟨h hends, h' hends⟩

/-- The first part makes the calls. -/
theorem before (h : Calls table x callees) : Calls table (x >>= f) callees := by
  intro s b s' hends
  obtain ⟨a, s₁, hx, _⟩ := ends_bind_ok.mp hends
  exact h hx

/-- The second part makes the calls, after one that reads. -/
theorem after (hx : Reads table x names) (hf : ∀ a, Calls table (f a) callees) :
    Calls table (x >>= f) callees := by
  intro s b s' hends callee hcallee
  obtain ⟨a, s₁, hfirst, hrest⟩ := ends_bind_ok.mp hends
  exact hx.callable hfirst (hf a hrest callee hcallee)

theorem bind (hreads : Reads table x names) (hx : Calls table x callees)
    (hf : ∀ a, Calls table (f a) more) :
    Calls table (x >>= f) (callees ++ more) := hx.before.append (after hreads hf)

theorem ite {c : Prop} [Decidable c] {y : Infer α} (hx : Calls table x callees)
    (hy : Calls table y callees) :
    Calls table (if c then x else y) callees := by
  split
  · exact hx
  · exact hy

theorem check {c : Prop} [Decidable c] {e : Error} {f : Unit → Infer β}
    (hf : Calls table (f ()) callees) :
    Calls table (if c then Inference.fail e >>= f else f ()) callees := .ite (.before .fail) hf

end Calls

end Combinators

section Expressions

variable {env : Env} {line : Nat} {callee : String} {asStatement : Bool} {args : List Expr}
  {argKinds : Infer (List Kind)} {callees names : List String}

/-- A name that is neither a function nor a call of the runtime is called
where it has no meaning. -/
theorem unknownCall_calls (hargs : Reads env.table argKinds names)
    (hcalls : Calls env.table argKinds callees) :
    Calls env.table (unknownCall callee line asStatement argKinds) (callee :: callees) := by
  refine (?_ : Calls env.table
    (unknownCall callee line asStatement argKinds) [callee]).append hcalls.before
  refine .after hargs fun kinds s a s' hends => List.forall_mem_singleton.mpr (.inr (.inr ?_))
  obtain ⟨scope, s₁, hscope, hrest⟩ := ends_bind_ok.mp hends
  obtain ⟨heq, rfl⟩ := ends_getScope.mp hscope
  cases heq
  rcases ends_ite.mp hrest with ⟨_, hfail⟩ | ⟨hmissing, _⟩
  · exact absurd hfail (by simp [unsupported])
  · exact not_ne_iff.mp hmissing

theorem ruleArguments_calls {rule : CallRule} (hrule : rule.Sound)
    (harity : ∀ arity, rule.arity = some arity → arity = args.length)
    (hargs : Calls env.table argKinds (Expr.calleesAll args)) :
    Calls env.table (ruleArguments env rule line args argKinds) (Expr.calleesAll args) := by
  unfold ruleArguments
  split
  · exact .fail
  · next hform =>
    have hlength := harity 1 (hrule.listLength hform).1
    split
    · exact .nil
    · next list rest =>
      obtain rfl : rest = [] := by simpa using hlength
      exact .nil
    · exact hargs.before
  · exact hargs

theorem runtimeCall_calls {rule : CallRule} (hrule : rule.Sound)
    (hargs : Calls env.table argKinds (Expr.calleesAll args)) :
    Calls env.table (runtimeCall env rule callee line asStatement args argKinds)
      (Expr.calleesAll args) := by
  intro s a s' hends
  obtain ⟨_, s₁, hcheck, hrest⟩ := ends_bind_ok.mp hends
  have harity : ∀ arity, rule.arity = some arity → arity = args.length := by
    intro arity heq
    rw [heq] at hcheck
    exact arity_of_checkArity hcheck
  have hcalls := (ruleArguments_calls hrule harity hargs).before hrest
  exact fun callee hcallee => (checkArity_reads _ _ _).callable hcheck (hcalls callee hcallee)

theorem callKind_calls (htable : env.table.Sound) (hargs : Reads env.table argKinds names)
    (hcalls : Calls env.table argKinds (Expr.calleesAll args)) :
    Calls env.table (callKind env callee line asStatement args argKinds)
      (callee :: Expr.calleesAll args) := by
  intro s a s' hends
  obtain ⟨s₀, s₁, hget, hrest⟩ := ends_bind_ok.mp hends
  obtain ⟨heq, rfl⟩ := ends_get.mp hget
  cases heq
  rcases ends_ite.mp hrest with ⟨hfunction, huser⟩ | ⟨_, hother⟩
  · obtain ⟨scope, s₂, hscope, huser⟩ := ends_bind_ok.mp huser
    obtain ⟨heq, rfl⟩ := ends_getScope.mp hscope
    cases heq
    rcases ends_ite.mp huser with ⟨_, hfail⟩ | ⟨hmodule, huser⟩
    · obtain ⟨_, _, hfail, _⟩ := ends_bind_ok.mp hfail
      exact absurd hfail (by simp [unsupported])
    · exact List.forall_mem_cons.mpr ⟨.inl ⟨hfunction, by simpa using hmodule⟩, hcalls.before huser⟩
  · cases hrule : env.table.call? callee with
    | none =>
      rw [hrule] at hother
      exact unknownCall_calls hargs hcalls hother
    | some rule =>
      rw [hrule] at hother
      exact List.forall_mem_cons.mpr
        ⟨.inr (.inl (by rw [hrule]; rfl)), runtimeCall_calls (htable.call hrule) hcalls hother⟩

mutual

theorem exprKind_calls (htable : env.table.Sound) (e : Expr) :
    Calls env.table (exprKind env line e) e.callees := by
  cases e with
  | literal | name => exact .nil
  | unary sign operand =>
    unfold exprKind
    exact (exprKind_calls htable operand).before
  | binary left op right =>
    unfold exprKind
    rw [Expr.callees_binary]
    exact .bind (exprKind_reads htable left) (exprKind_calls htable left) fun _ =>
      (exprKind_calls htable right).before
  | call callee args =>
    unfold exprKind
    exact callKind_calls htable (exprKinds_reads htable args) (exprKinds_calls htable args)
  | index list position =>
    unfold exprKind
    exact .after (elementKind_reads list) fun _ => (exprKind_calls htable position).before
  | list items => exact .fail

theorem exprKinds_calls (htable : env.table.Sound) (es : List Expr) :
    Calls env.table (exprKinds env line es) (Expr.calleesAll es) := by
  cases es with
  | nil => exact .nil
  | cons e es =>
    unfold exprKinds
    rw [Expr.calleesAll_cons]
    exact .bind (exprKind_reads htable e) (exprKind_calls htable e) fun _ =>
      (exprKinds_calls htable es).before

end

end Expressions

section Statements

variable {env : Env} {line : Nat}

theorem itemsKind_calls (htable : env.table.Sound) (first : Option Kind) (items : List Expr) :
    Calls env.table (itemsKind env line first items) (Expr.calleesAll items) := by
  induction items generalizing first with
  | nil => exact .nil
  | cons item items ih =>
    unfold itemsKind
    rw [Expr.calleesAll_cons]
    refine .check (.bind (exprKind_reads htable item) (exprKind_calls htable item) fun kind => ?_)
    split
    · exact ih _
    · exact .check (ih _)

end Statements

/-- The calls in an expression that is examined can be made. -/
theorem Examined.callable {table : CallTable} (htable : table.Sound) {s : State} {e : Expr}
    (h : Examined table s e) :
    ∀ callee ∈ e.callees, s.Callable table callee := by
  cases h with
  | value henv h =>
    subst henv
    exact exprKind_calls htable _ h
  | items henv h =>
    subst henv
    exact itemsKind_calls htable none _ h
  | stands henv h =>
    subst henv
    exact callKind_calls htable (exprKinds_reads htable _) (exprKinds_calls htable _) h
  | bound => exact List.forall_mem_nil _

section Names

variable {table : CallTable} {x : String}

mutual

/-- A name that means nothing before a statement, and that the statement does not bind, means
nothing in it and after it. -/
theorem Binds.missing {fr fr' : Frame} {stmt stmt' : Stmt} {readings : List Reading}
    (h : Binds table fr stmt stmt' fr' readings) (hwf : fr.Wf table)
    (hmissing : fr.scope.meaning x = .missing) (hassigned : x ∉ stmt.assigned)
    (hloops : x ∉ stmt.loopVars) :
    (∀ reading ∈ readings, reading.scope.meaning x = .missing) ∧
      fr'.scope.meaning x = .missing := by
  have hread : ∀ names, (fr.readAll names).scope.meaning x = .missing := fun names => by
    simpa [Frame.readAll] using hmissing
  cases h with
  | @again _ _ _ value =>
    exact ⟨List.forall_mem_cons.mpr ⟨hmissing, List.forall_mem_singleton.mpr (hread _)⟩, hread _⟩
  | @first _ line name value _ _ kind _ hfree
  | @hoist _ line name value _ _ kind _ hfree =>
    have hne : x ≠ name := fun heq => hassigned (List.mem_singleton.mpr heq)
    have hm := ((hwf.readAll value.vars).1.meaning_declare kind line hfree x).trans (if_neg hne)
    have hlast := hm.trans (hread _)
    exact ⟨List.forall_mem_cons.mpr ⟨hmissing, List.forall_mem_singleton.mpr hlast⟩, hlast⟩
  | element =>
    refine ⟨List.forall_mem_cons.mpr ⟨hmissing, List.forall_mem_singleton.mpr (hread _)⟩, ?_⟩
    simpa [Frame.read, Frame.readAll] using hmissing
  | @conditional _ _ condition _ _ _ _ _ _ _ _ hthen helse =>
    have hwf₁ := (hwf.readAll condition.vars).1.enter
    simp only [Stmt.assigned, Stmt.loopVars, List.mem_append, not_or] at hassigned hloops
    obtain ⟨hr₁, hm₁⟩ := hthen.missing hwf₁ (hread _) hassigned.1 hloops.1
    obtain ⟨hr₂, hm₂⟩ := helse.missing (hthen.extends hwf₁).1 hm₁ hassigned.2 hloops.2
    exact ⟨List.forall_mem_cons.mpr ⟨hmissing, List.forall_mem_append.mpr ⟨hr₁, hr₂⟩⟩, hm₂⟩
  | @loopAgain _ _ var bounds _ _ _ _ _ _ _ _ hloop =>
    simp only [Stmt.loopVars, List.mem_cons, not_or] at hloops
    have hwf₁ := (hwf.readAll (Expr.varsAll bounds.exprs)).1.enterLoop var
    obtain ⟨hr, hm⟩ := hloop.missing hwf₁ (hread _) hassigned hloops.2
    refine ⟨List.forall_mem_append.mpr ⟨List.forall_mem_map.mpr fun _ _ => hmissing, ?_⟩, hm⟩
    exact List.forall_mem_cons.mpr ⟨hread _, hr⟩
  | @loopFirst _ line var bounds _ _ _ last _ _ _ hfree hloop =>
    simp only [Stmt.loopVars, List.mem_cons, not_or] at hloops
    have hwf₁ := (hwf.readAll (Expr.varsAll bounds.exprs)).1
    have hwf₂ := (hwf₁.declare .int line hfree).1.enterLoop var
    have hdeclared :=
      ((hwf₁.meaning_declare .int line hfree x).trans (if_neg hloops.1)).trans (hread _)
    obtain ⟨hr, hm⟩ := hloop.missing hwf₂ hdeclared hassigned hloops.2
    obtain ⟨hwf₃, hextends⟩ := hloop.extends hwf₂
    obtain ⟨_, _, hafter⟩ := hwf₁.afterDeclaringLoop hfree hwf₃ hextends
    refine ⟨List.forall_mem_append.mpr ⟨List.forall_mem_map.mpr fun _ _ => hmissing, ?_⟩, ?_⟩
    · exact List.forall_mem_cons.mpr ⟨hdeclared, hr⟩
    · rw [hafter, if_neg hloops.1]
      exact hm
  | expr | give => exact ⟨List.forall_mem_singleton.mpr hmissing, hread _⟩
  | bare | inert => exact ⟨List.forall_mem_nil _, hmissing⟩
  | share hnames =>
    refine ⟨List.forall_mem_nil _, ?_⟩
    rw [Frame.meaning_share fun name hname => (hnames name hname).1]
    exact hmissing

theorem BindsAll.missing {fr fr' : Frame} {stmts stmts' : List Stmt} {readings : List Reading}
    (h : BindsAll table fr stmts stmts' fr' readings) (hwf : fr.Wf table)
    (hmissing : fr.scope.meaning x = .missing) (hassigned : x ∉ assignedIn stmts)
    (hloops : x ∉ loopVarsIn stmts) :
    (∀ reading ∈ readings, reading.scope.meaning x = .missing) ∧
      fr'.scope.meaning x = .missing := by
  cases h with
  | nil => exact ⟨List.forall_mem_nil _, hmissing⟩
  | cons hhead htail =>
    simp only [assignedIn, loopVarsIn, List.mem_append, not_or] at hassigned hloops
    obtain ⟨hr₁, hm₁⟩ := hhead.missing hwf hmissing hassigned.1 hloops.1
    obtain ⟨hr₂, hm₂⟩ := htail.missing (hhead.extends hwf).1 hm₁ hassigned.2 hloops.2
    exact ⟨List.forall_mem_append.mpr ⟨hr₁, hr₂⟩, hm₂⟩

end

/-- Where readings find that a name means nothing, so do the visits. -/
theorem missing_of_sameMeaning {visits : List Visit} {readings : List Reading}
    (hsees : List.Forall₂ SameMeaning visits readings)
    (h : ∀ reading ∈ readings, reading.scope.meaning x = .missing) :
    ∀ visit ∈ visits, visit.state.frame.scope.meaning x = .missing := by
  intro visit hvisit
  obtain ⟨reading, hreading, hsame⟩ := exists_of_forall₂ hsees hvisit
  rw [hsame.meaning]
  exact h reading hreading

end Names

section Modules

variable {table : CallTable} {x : String} {s s' : State}

/-- The module assigns no name of a function. -/
theorem not_contains_of_checkAssignable {env : Env} {name : String} {line : Nat}
    (hmodule : s.frame.scope.globals = none)
    (h : Ends (checkAssignable env name line) s (.ok ()) s') :
    s.functions.contains name = false := by
  obtain ⟨scope, s₁, hscope, hrest⟩ := ends_bind_ok.mp h
  obtain ⟨heq, rfl⟩ := ends_getScope.mp hscope
  cases heq
  obtain ⟨s₀, s₂, hget, hrest⟩ := ends_bind_ok.mp hrest
  obtain ⟨heq, rfl⟩ := ends_get.mp hget
  cases heq
  rcases ends_ite.mp hrest with ⟨_, hfail⟩ | ⟨hnot, _⟩
  · obtain ⟨_, _, hfail, _⟩ := ends_bind_ok.mp hfail
    exact absurd hfail (by simp [unsupported])
  · simpa [Scope.isModule, hmodule] using hnot

/-- An assignment of the module does not bind a name of the runtime or of a function. -/
theorem not_mem_assigned {line : Nat} {target : Target} {value : Expr} {declared : Option Kind}
    {b : Binding} {found : Stmt} (hmodule : s.frame.scope.globals = none)
    (h : Ends (inferStmt ⟨table, none⟩ (.assign line target value declared b)) s (.ok found) s')
    (hx : table.isKnown x = true ∨ s.functions.contains x = true) :
    x ∉ (Stmt.assign line target value declared b).assigned := by
  cases target with
  | element => exact List.not_mem_nil
  | name id =>
    obtain ⟨binding, s₁, hassign, _⟩ := ends_bind_ok.mp h
    obtain ⟨_, s₂, hcheck, _⟩ := ends_bind_ok.mp hassign
    have hassignable : Runs NoReason (checkAssignable ⟨table, none⟩ id line) s _ :=
      checkAssignable_runs
    obtain ⟨_, hunknown, _⟩ := hassignable.ok hcheck
    have hfunction := not_contains_of_checkAssignable hmodule hcheck
    intro hmem
    obtain rfl : x = id := List.mem_singleton.mp hmem
    rcases hx with hx | hx
    · exact absurd (hx.symm.trans hunknown) (by decide)
    · exact absurd (hx.symm.trans hfunction) (by decide)

/-- A name of the runtime or of a function means nothing in the assignments of the
module, and after them. -/
theorem moduleVisits_missing (htable : table.Sound) {stmts found : List Stmt}
    (hwf : s.frame.Wf table) (hmodule : s.frame.scope.globals = none)
    (h : Ends (inferGlobals table stmts) s (.ok found) s')
    (hx : table.isKnown x = true ∨ s.functions.contains x = true)
    (hmissing : s.frame.scope.meaning x = .missing) :
    (∀ visit ∈ moduleVisits table s stmts, visit.state.frame.scope.meaning x = .missing) ∧
      s'.frame.scope.meaning x = .missing ∧ s'.frame.Wf table := by
  induction stmts generalizing s found with
  | nil =>
    obtain ⟨_, rfl⟩ := ends_pure.mp h
    exact ⟨List.forall_mem_nil _, hmissing, hwf⟩
  | cons stmt stmts ih =>
    obtain ⟨stmt', found', s₁, -, hhead, htail⟩ := ends_inferGlobals_cons h
    unfold moduleVisits
    split at hhead
    · next hassign =>
      rw [if_pos hassign, hhead.after_eq]
      have hwalks : Walks ⟨table, none⟩ s stmt stmt' s₁ := inferStmt_walks htable stmt hhead
      obtain ⟨readings, hbinds, hsees⟩ := hwalks
      have hassigned : x ∉ stmt.assigned := by
        cases stmt with
        | assign => exact not_mem_assigned hmodule hhead hx
        | _ => cases hassign
      have hloops : x ∉ stmt.loopVars := by
        cases stmt with
        | assign => exact List.not_mem_nil
        | _ => cases hassign
      obtain ⟨hr, hm⟩ := hbinds.missing hwf hmissing hassigned hloops
      obtain ⟨hwf₁, hextends⟩ := hbinds.extends hwf
      have hx₁ : table.isKnown x = true ∨ s₁.functions.contains x = true := by
        rwa [(inferStmt_keeps htable stmt s hhead).contains_eq]
      obtain ⟨hrest, hlast⟩ := ih hwf₁ (hextends.globals.trans hmodule) htail hx₁ hm
      exact ⟨List.forall_mem_append.mpr ⟨missing_of_sameMeaning hsees hr, hrest⟩, hlast⟩
    · next hassign =>
      obtain ⟨-, rfl⟩ := hhead
      rw [if_neg hassign]
      exact ih hwf hmodule htail hx hmissing

end Modules

section Programs

variable {table : CallTable} {p p' : Program} {task : Task} {callee : String}

/-- The names of the functions of a program. -/
def functionNames (p : Program) : List String := (tasksOf p.statements).map Task.name

/-- A callee that the function binds itself: a function of the program by any of its variables, a
call of the runtime by a parameter or a loop variable. -/
def Captures (table : CallTable) (p : Program) (task : Task) (callee : String) : Prop :=
  callee ∈ functionNames p ∧
      (callee ∈ task.paramNames ∨ callee ∈ assignedIn task.body ∨ callee ∈ loopVarsIn task.body) ∨
    (table.call? callee).isSome = true ∧ (callee ∈ task.paramNames ∨ callee ∈ loopVarsIn task.body)

theorem contains_start : (start p).functions.contains callee = true ↔ callee ∈ functionNames p := by
  rw [Functions.contains, Option.isSome_iff_exists]
  constructor
  · rintro ⟨slots, hslots⟩
    obtain ⟨task, htask, rfl, _⟩ := mem_of_find?_heads hslots
    exact List.mem_map_of_mem htask
  · intro hmem
    obtain ⟨task, htask, rfl⟩ := List.mem_map.mp hmem
    apply Option.isSome_iff_exists.mp
    exact List.find?_isSome.mpr ⟨_, List.mem_map_of_mem htask, beq_self_eq_true _⟩

theorem isKnown_of_call? (h : (table.call? callee).isSome = true) :
    table.isKnown callee = true := by
  simp [CallTable.isKnown, h]

/-- A name of the runtime or of a function means nothing in the assignments of an accepted
module, and after them. -/
theorem module_missing (htable : table.Sound) (h : (infer table p).1 = .ok p')
    (hcallee : table.isKnown callee = true ∨ callee ∈ functionNames p) :
    (∀ visit ∈ moduleVisits table (start p) p.statements,
      visit.state.frame.scope.meaning callee = .missing) ∧
      (globals table p).lookup callee = none := by
  obtain ⟨_, _, stmts, _, _, hglobals, _⟩ := infer_ok h
  have hstart : (Frame.ofScope .module).OfModule table := .start
  have hx : table.isKnown callee = true ∨ (start p).functions.contains callee = true :=
    hcallee.imp_right contains_start.mpr
  obtain ⟨hvisits, hlast, hwf⟩ := moduleVisits_missing htable hstart.wf rfl hglobals hx rfl
  refine ⟨hvisits, Option.eq_none_iff_forall_ne_some.mpr fun v hv => ?_⟩
  -- a shared name would mean a global
  have hunshared : callee ∉ (afterGlobals table p).frame.scope.shared := fun hmem => by
    obtain ⟨_, kind, hm⟩ := hwf.shared callee hmem
    rw [hlast] at hm
    cases hm
  have hlocal : (afterGlobals table p).frame.scope.local? callee = some v := by
    rw [Scope.local?, if_neg (by simpa [Scope.isShared] using hunshared)]
    exact hv
  rw [Scope.meaning_eq, hlocal] at hlast
  cases hlast

/-- A name that is no parameter and no global means nothing where a function starts. -/
theorem Task.missing_start {globals : Variables} {kinds : List Kind} {x : String}
    (hparams : x ∉ task.paramNames) (hglobals : globals.lookup x = none) :
    (task.start globals kinds).scope.meaning x = .missing := by
  rw [Scope.meaning_of_not_own fun kind hown => hparams (Task.param_of_own hown)]
  simp [Scope.outward, Scope.global?, Task.start, Frame.ofScope, Task.bodyScope_eq,
    Scope.function, hglobals]

/-- The calls in the assignments of an accepted module go to no variable. -/
theorem module_callees (htable : table.Sound) (h : (infer table p).1 = .ok p') :
    ∀ visit ∈ moduleVisits table (start p) p.statements, ∀ callee ∈ visit.expr.callees,
      visit.state.frame.scope.meaning callee = .missing := by
  intro visit hvisit callee hcallee
  obtain ⟨_, _, stmts, _, _, hglobals, _⟩ := infer_ok h
  have hpasses := moduleVisits_pass hglobals visit hvisit
  rcases hpasses.examined.callable htable callee hcallee with ⟨hfunction, _⟩ | hcall | hmissing
  · rw [hpasses.fills.grows.alike.contains_eq] at hfunction
    exact (module_missing htable h (.inr (contains_start.mp hfunction))).1 visit hvisit
  · exact (module_missing htable h (.inl (isKnown_of_call? hcall))).1 visit hvisit
  · exact hmissing

theorem Settles.contains_eq (htable : table.Sound) (h : (infer table p).1 = .ok p')
    {s : State} {stmt : Stmt} (hsettles : Settles table p p' task s stmt) (name : String) :
    s.functions.contains name = (start p).functions.contains name := by
  obtain ⟨_, _, stmts, _, _, hglobals, _⟩ := infer_ok h
  exact ((inferGlobals_keeps htable p.statements _ hglobals).trans
    (hsettles.tried.alike htable)).contains_eq name

/-- A name of the runtime or of a function means nothing in a function that does not bind it. -/
theorem Settles.missing (htable : table.Sound) (h : (infer table p).1 = .ok p')
    (htask : task ∈ tasksOf p.statements) {s : State} {stmt : Stmt}
    (hsettles : Settles table p p' task s stmt)
    (hcallee : table.isKnown callee = true ∨ callee ∈ functionNames p)
    (hparams : callee ∉ task.paramNames) (hassigned : callee ∉ assignedIn task.body)
    (hloops : callee ∉ loopVarsIn task.body) :
    ∀ visit ∈ task.visits table (globals table p) s,
      visit.state.frame.scope.meaning callee = .missing := by
  obtain ⟨kinds, _, _, _, readings, _, _, hbinds, hsees⟩ := hsettles.walks htable h htask
  have hstart : (task.start (globals table p) kinds).scope.meaning callee = .missing :=
    Task.missing_start hparams (module_missing htable h hcallee).2
  exact missing_of_sameMeaning hsees (hbinds.missing Task.start_wf hstart hassigned hloops).1

/-- Where it means something in a function, it is a variable of the function itself. -/
theorem Settles.missing_or_own (htable : table.Sound) (h : (infer table p).1 = .ok p')
    (htask : task ∈ tasksOf p.statements) {s : State} {stmt : Stmt}
    (hsettles : Settles table p p' task s stmt)
    (hcallee : table.isKnown callee = true ∨ callee ∈ functionNames p) :
    ∀ visit ∈ task.visits table (globals table p) s,
      visit.state.frame.scope.meaning callee = .missing ∨
      ∃ kind, visit.state.frame.scope.meaning callee = .own kind := by
  intro visit hvisit
  obtain ⟨kinds, _, _, _, readings, _, _, hbinds, hsees⟩ := hsettles.walks htable h htask
  obtain ⟨reading, hreading, hsame⟩ := exists_of_forall₂ hsees hvisit
  have hglobals : reading.scope.globals = some (globals table p) := by
    rw [hbinds.same_globals Task.start_wf reading hreading]
    simp [Task.start, Frame.ofScope, Task.bodyScope_eq, Scope.function]
  have houtward : reading.scope.outward callee = .missing := by
    simp [Scope.outward, Scope.global?, hglobals, (module_missing htable h hcallee).2]
  rw [hsame.meaning, Scope.meaning_eq, houtward]
  cases reading.scope.local? callee with
  | none => exact .inl rfl
  | some v => exact .inr ⟨v.kind, rfl⟩

/-- A call in a settled function goes to a name that means nothing there or is captured. -/
theorem Settles.callees (htable : table.Sound) (h : (infer table p).1 = .ok p')
    (htask : task ∈ tasksOf p.statements) {s : State} {stmt : Stmt}
    (hsettles : Settles table p p' task s stmt) :
    ∀ visit ∈ task.visits table (globals table p) s, ∀ callee ∈ visit.expr.callees,
      visit.state.frame.scope.meaning callee = .missing ∨
        Captures table p task callee ∧
          ∃ kind, visit.state.frame.scope.meaning callee = .own kind := by
  intro visit hvisit callee hcallee
  have hpasses := hsettles.passes htable h htask visit hvisit
  rcases hpasses.examined.callable htable callee hcallee with ⟨hfunction, _⟩ | hcall | hmissing
  · rw [hpasses.fills.grows.alike.contains_eq, hsettles.contains_eq htable h,
      contains_start] at hfunction
    by_cases hbound : callee ∈ task.paramNames ∨ callee ∈ assignedIn task.body ∨
      callee ∈ loopVarsIn task.body
    · exact (hsettles.missing_or_own htable h htask (.inr hfunction) visit hvisit).imp_right
        (⟨.inl ⟨hfunction, hbound⟩, ·⟩)
    · obtain ⟨hparams, hassigned, hloops⟩ :
        callee ∉ task.paramNames ∧ callee ∉ assignedIn task.body ∧
          callee ∉ loopVarsIn task.body := by simpa only [not_or] using hbound
      exact .inl (hsettles.missing htable h htask
        (.inr hfunction) hparams hassigned hloops visit hvisit)
  · have hknown := isKnown_of_call? hcall
    by_cases hbound : callee ∈ task.paramNames ∨ callee ∈ loopVarsIn task.body
    · exact (hsettles.missing_or_own htable h htask (.inl hknown) visit hvisit).imp_right
        (⟨.inr ⟨hcall, hbound⟩, ·⟩)
    · obtain ⟨hparams, hloops⟩ := not_or.mp hbound
      obtain ⟨_, _, _, _, _, _, _, hbinds, _⟩ := hsettles.walks htable h htask
      -- an assignment to it would have been refused
      have hassigned : callee ∉ assignedIn task.body := fun hmem =>
        absurd (hbinds.unknown hmem) (by simp [hknown])
      exact .inl (hsettles.missing htable h htask
        (.inl hknown) hparams hassigned hloops visit hvisit)
  · exact .inl hmissing

/-- No call of an accepted program goes to a variable, but those of a function to a name that
the function binds itself although it is the name of a function or of a call of the runtime. No
call goes to a global. -/
theorem infer_callees (htable : table.Built) (h : (infer table p).1 = .ok p') :
    ((∀ stmt ∈ p.statements, stmt.isAssign = true → ∀ e ∈ stmt.exprs,
        ∃ visit ∈ moduleVisits table (start p) p.statements, e.callees ⊆ visit.expr.callees) ∧
      ∀ visit ∈ moduleVisits table (start p) p.statements, ∀ callee ∈ visit.expr.callees,
        visit.state.frame.scope.meaning callee = .missing) ∧
    ∀ task ∈ tasksOf p.statements, (∃ s stmt, Settles table p p' task s stmt) ∧
      ∀ s stmt, Settles table p p' task s stmt →
        (∀ e ∈ exprsIn task.body, ∃ visit ∈ task.visits table (globals table p) s,
          e.callees ⊆ visit.expr.callees) ∧
        ∀ visit ∈ task.visits table (globals table p) s, ∀ callee ∈ visit.expr.callees,
          visit.state.frame.scope.meaning callee = .missing ∨
            Captures table p task callee ∧
              ∃ kind, visit.state.frame.scope.meaning callee = .own kind := by
  refine ⟨⟨fun stmt hstmt hassign e he => ?_, module_callees htable.sound h⟩, fun task htask => ?_⟩
  · obtain ⟨visit, hvisit, rfl⟩ := moduleVisits_cover _ _ stmt hstmt hassign e he
    exact ⟨visit, hvisit, List.Subset.refl _⟩
  refine ⟨(infer_accepts htable.sound h).settled task htask,
    fun s stmt hsettles => ⟨fun e he => ?_, ?_⟩⟩
  · obtain ⟨visit, hvisit, rfl⟩ := hsettles.covers htable.sound h htask e he
    exact ⟨visit, hvisit, List.Subset.refl _⟩
  · exact hsettles.callees htable.sound h htask

/-- A function that calls another one, the runtime and an unknown name, with
variables of its own. -/
def caller : Program where
  header := []
  statements := [
    .assign 1 (.name "x") (.call "abs" [.literal (.int 1)]) none .unresolved,
    .function 2 ⟨"g", [⟨"n", some .int⟩], none, false⟩ none [] [.give 3 (some (.name "n"))],
    .function 4 ⟨"f", [], none, false⟩ none []
      [.assign 5 (.name "y") (.call "g" [.name "x"]) none .unresolved,
        .expr 6 (.call "delay" [.name "y"]),
        .expr 7 (.call "tick" [])]]

/-- None of its calls goes to a variable. -/
theorem infer_callees_caller : ∃ p', (infer .builtin caller).1 = .ok p' ∧
    ∀ task ∈ tasksOf caller.statements, ∀ s stmt, Settles .builtin caller p' task s stmt →
      ∀ visit ∈ task.visits .builtin (globals .builtin caller) s, ∀ callee ∈ visit.expr.callees,
        visit.state.frame.scope.meaning callee = .missing := by
  obtain ⟨p', h⟩ : ∃ p', (infer .builtin caller).1 = .ok p' :=
    Outcome.exists_of_isOk (by decide +kernel)
  refine ⟨p', h, fun task htask s stmt hsettles visit hvisit callee hcallee => ?_⟩
  obtain ⟨_, hcalls⟩ := ((infer_callees .builtin h).2 task htask).2 s stmt hsettles
  refine (hcalls visit hvisit callee hcallee).resolve_right fun ⟨hcaptures, _⟩ => ?_
  have hfree : ∀ task ∈ tasksOf caller.statements,
      ∀ x ∈ task.paramNames ++ (assignedIn task.body ++ loopVarsIn task.body),
        x ∉ functionNames caller ∧ (CallTable.builtin.call? x).isSome = false := by decide +kernel
  have hbound := hfree task htask callee
  simp only [List.mem_append] at hbound
  rcases hcaptures with ⟨hfunction, hmem⟩ | ⟨hcall, hmem⟩
  · exact (hbound hmem).1 hfunction
  · exact absurd hcall (by simp [(hbound (hmem.imp_right .inr)).2])

/-- A function that assigns its own name and calls it. -/
def selfish : Task :=
  ⟨1, ⟨"f", [], none, false⟩,
    [.assign 2 (.name "f") (.literal (.int 1)) none .unresolved, .expr 3 (.call "f" [])]⟩

def captured : Program where
  header := []
  statements := [.function selfish.line selfish.head none [] selfish.body]

/-- The call is of the variable. -/
theorem infer_captured : ∃ p' s stmt, (infer .builtin captured).1 = .ok p' ∧
    Settles .builtin captured p' selfish s stmt ∧
    ∃ visit ∈ selfish.visits .builtin (globals .builtin captured) s, "f" ∈ visit.expr.callees ∧
      visit.state.frame.scope.meaning "f" = .own .int := by
  obtain ⟨p', h⟩ : ∃ p', (infer .builtin captured).1 = .ok p' :=
    Outcome.exists_of_isOk (by decide +kernel)
  obtain ⟨s, stmt, hsettles⟩ :=
    (infer_accepts CallTable.Built.builtin.sound h).settled selfish List.mem_cons_self
  obtain rfl := hsettles.tried.of_alone (by decide +kernel)
  refine ⟨p', _, stmt, h, hsettles, ?_⟩
  decide +kernel

end Programs

end Inference

end Sketchwright
