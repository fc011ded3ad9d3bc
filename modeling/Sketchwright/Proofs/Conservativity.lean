import Sketchwright.Proofs.Annotated
import Sketchwright.Proofs.Callees
import Sketchwright.Proofs.Comments

/-! Configuration adds nothing but names. Inference and code generation ask a table about no other
names than those that occur in the program, so that two tables that say the same of these names
lead to the same sketch. -/

namespace Sketchwright

/-- The identifiers that an expression reads, and its callees. -/
def Expr.mentions (e : Expr) : List String := e.vars ++ e.callees

/-- The names in a program: those of functions, parameters and variables, the identifiers that are
read, and the callees. -/
def Program.mentions (p : Program) : List String :=
  namesIn p.statements ++ (exprsIn (p.header ++ p.statements)).flatMap Expr.mentions

/-- The names that a configuration adds to those of the runtime. -/
def Config.added (config : Config) : List String :=
  config.calls.map CallEntry.name ++ config.constants.map ConstantEntry.name

namespace CallTable

variable {t t' table added : CallTable} {names : List String} {name : String}

/-- The tables say the same of a name. -/
def AgreeOn (t t' : CallTable) (name : String) : Prop :=
  t.call? name = t'.call? name ∧ t.constant? name = t'.constant? name

/-- The tables say the same of these names. -/
def Agree (t t' : CallTable) (names : List String) : Prop := ∀ x ∈ names, t.AgreeOn t' x

theorem AgreeOn.trans {t'' : CallTable} (h : t.AgreeOn t' name) (h' : t'.AgreeOn t'' name) :
    t.AgreeOn t'' name :=
  ⟨h.1.trans h'.1, h.2.trans h'.2⟩

theorem AgreeOn.isKnown (h : t.AgreeOn t' name) : t.isKnown name = t'.isKnown name := by
  rw [CallTable.isKnown, CallTable.isKnown, h.1, h.2]

theorem Agree.subset {as bs : List String} (h : t.Agree t' bs)
    (hsubset : as ⊆ bs) : t.Agree t' as :=
  fun x hx => h x (hsubset hx)

@[simp] theorem agree_append {as bs : List String} :
    t.Agree t' (as ++ bs) ↔ t.Agree t' as ∧ t.Agree t' bs :=
  List.forall_mem_append

@[simp] theorem agree_cons {x : String} {xs : List String} :
    t.Agree t' (x :: xs) ↔ t.AgreeOn t' x ∧ t.Agree t' xs :=
  List.forall_mem_cons

theorem ruleOf_name {entry : CallEntry} {rule : CallRule} (h : ruleOf entry = .ok rule) :
    rule.name = entry.name := by
  obtain ⟨name, target, _ | kind⟩ := entry
  · obtain rfl := Except.ok.inj h
    rfl
  · cases kind with
    | list => cases h
    | _ =>
      obtain rfl := Except.ok.inj h
      rfl

/-- An added call leaves other names alone. -/
theorem addCall_agrees {entry : CallEntry} (h : table.addCall entry = .ok added)
    (hname : entry.name ≠ name) :
    added.AgreeOn table name := by
  simp only [addCall, Outcome.ite_eq_ok, Outcome.bind_eq_ok, Outcome.throw_ne_ok,
    Outcome.pure_eq_ok, false_and, and_false, exists_false, false_or] at h
  obtain ⟨_, rule, hrule, rfl⟩ := h
  refine ⟨?_, rfl⟩
  simp [call?, List.find?_append, ruleOf_name hrule, hname]

/-- An added constant leaves other names alone. -/
theorem addConstant_agrees {entry : ConstantEntry} (h : table.addConstant entry = .ok added)
    (hname : entry.name ≠ name) : added.AgreeOn table name := by
  simp only [addConstant, Outcome.ite_eq_ok, Outcome.bind_eq_ok, Outcome.throw_ne_ok,
    Outcome.pure_eq_ok, false_and, and_false, exists_false, false_or] at h
  obtain ⟨_, _, rfl⟩ := h
  refine ⟨rfl, ?_⟩
  simp [constant?, List.lookup_append, List.lookup_cons, beq_eq_false_iff_ne.mpr hname.symm]

theorem addAll_agrees {α : Type} {add : CallTable → α → Except ConfigError CallTable}
    (key : α → String)
    (hadd : ∀ {table added entry}, add table entry = .ok added → key entry ≠ name →
      added.AgreeOn table name)
    {entries : List α} (hname : name ∉ entries.map key) :
    (table.addAll add entries).1.AgreeOn table name := by
  induction entries generalizing table with
  | nil => exact ⟨rfl, rfl⟩
  | cons entry entries ih =>
    simp only [List.map_cons, List.mem_cons, not_or] at hname
    obtain ⟨hentry, hentries⟩ := hname
    unfold addAll
    split
    · next hok => exact (ih hentries).trans (hadd hok (Ne.symm hentry))
    · exact ⟨rfl, rfl⟩

/-- The table of a configuration and the built-in one agree on the names that are not added. -/
theorem ofConfig_agrees {config : Config} (h : ofConfig config = .ok table)
    (hname : name ∉ config.added) :
    table.AgreeOn builtin name := by
  have hcalls : name ∉ config.calls.map CallEntry.name :=
    fun hmem => hname (List.mem_append_left _ hmem)
  have hconstants : name ∉ config.constants.map ConstantEntry.name :=
    fun hmem => hname (List.mem_append_right _ hmem)
  have hfirst : (builtin.addAll addCall config.calls).1.AgreeOn builtin name :=
    addAll_agrees CallEntry.name addCall_agrees hcalls
  unfold ofConfig extend at h
  rcases hadded : builtin.addAll addCall config.calls with ⟨between, _ | refusal⟩
  · rw [hadded] at h hfirst
    have hsecond : (between.addAll addConstant config.constants).1.AgreeOn between name :=
      addAll_agrees ConstantEntry.name addConstant_agrees hconstants
    rcases hlast : between.addAll addConstant config.constants with ⟨last, _ | refusal⟩
    · simp only [hlast] at h hsecond
      cases h
      exact hsecond.trans hfirst
    · simp [hlast] at h
  · simp [hadded] at h

section Parts

/-- What an argument or item mentions, the whole mentions too. -/
theorem mentions_subset {es : List Expr} {e : Expr} (h : e ∈ es) :
    e.mentions ⊆ Expr.varsAll es ++ Expr.calleesAll es := by
  refine List.append_subset.mpr ⟨fun x hx => ?_, fun x hx => ?_⟩
  · exact List.mem_append_left _ (Expr.mem_varsAll.mpr ⟨e, h, hx⟩)
  · obtain ⟨site, hsite, rfl⟩ := List.mem_map.mp hx
    exact List.mem_append_right _ (List.mem_map_of_mem (Expr.mem_callsAll.mpr ⟨e, h, hsite⟩))

theorem agree_name {id : String} (h : t.Agree t' (Expr.name id).mentions) : t.AgreeOn t' id :=
  h id (by simp [Expr.mentions, Expr.vars])

theorem agree_binary {left right : Expr} {op : BinOp}
    (h : t.Agree t' (Expr.binary left op right).mentions) :
    t.Agree t' left.mentions ∧ t.Agree t' right.mentions := by
  rw [Expr.mentions, Expr.vars, Expr.callees_binary] at h
  simp only [agree_append] at h
  obtain ⟨⟨hleft, hright⟩, hleft', hright'⟩ := h
  exact ⟨agree_append.mpr ⟨hleft, hleft'⟩, agree_append.mpr ⟨hright, hright'⟩⟩

theorem agree_call {callee : String} {args : List Expr}
    (h : t.Agree t' (Expr.call callee args).mentions) :
    t.AgreeOn t' callee ∧ ∀ arg ∈ args, t.Agree t' arg.mentions := by
  obtain ⟨hvars, hcallees⟩ := agree_append.mp h
  obtain ⟨hcallee, hcallees⟩ := agree_cons.mp hcallees
  exact ⟨hcallee, fun arg harg =>
    (agree_append.mpr ⟨hvars, hcallees⟩).subset (mentions_subset harg)⟩

theorem agree_index {list : String} {position : Expr}
    (h : t.Agree t' (Expr.index list position).mentions) :
    t.AgreeOn t' list ∧ t.Agree t' position.mentions := agree_cons.mp h

theorem agree_list {items : List Expr} (h : t.Agree t' (Expr.list items).mentions) :
    ∀ item ∈ items, t.Agree t' item.mentions := fun _ hitem => h.subset (mentions_subset hitem)

theorem agree_mentions {p : Program} (h : t.Agree t' p.mentions) :
    ∀ e ∈ exprsIn (p.header ++ p.statements), t.Agree t' e.mentions := fun e he =>
  (agree_append.mp h).2.subset fun _ hx => List.mem_flatMap.mpr ⟨e, he, hx⟩

end Parts

end CallTable

theorem Program.exprs_of_bare {p p' : Program} (h : p'.bare = p.bare) :
    exprsIn (p'.header ++ p'.statements) = exprsIn (p.header ++ p.statements) := by
  simp only [bare, Program.mk.injEq] at h
  obtain ⟨hheader, hstatements⟩ := h
  rw [exprsIn_append, exprsIn_append, hheader, ← exprsIn_bareAll p'.statements, hstatements,
    exprsIn_bareAll]

namespace Inference

open CallTable

variable {t t' : CallTable} {owner : Option Owner} {line : Nat}

section Expressions

theorem resolve_agree {name : String} (h : t.AgreeOn t' name) :
    resolve ⟨t, owner⟩ name line = resolve ⟨t', owner⟩ name line := by
  simp only [resolve, h.2]

theorem elementKind_agree {name : String} (h : t.AgreeOn t' name) :
    elementKind ⟨t, owner⟩ name line = elementKind ⟨t', owner⟩ name line := by
  simp only [elementKind, resolve_agree h]

theorem ruleArguments_agree {rule : CallRule} {args : List Expr} {argKinds : Infer (List Kind)}
    (h : ∀ arg ∈ args, t.Agree t' arg.mentions) : ruleArguments ⟨t, owner⟩ rule line args argKinds =
      ruleArguments ⟨t', owner⟩ rule line args argKinds := by
  unfold ruleArguments
  split
  · rfl
  · split
    · rfl
    · next list _ => rw [elementKind_agree (agree_name (h (.name list) List.mem_cons_self))]
    · rfl
  · rfl

theorem callKind_agree {callee : String} {asStatement : Bool} {args : List Expr}
    {argKinds : Infer (List Kind)} (hcallee : t.AgreeOn t' callee)
    (hargs : ∀ arg ∈ args, t.Agree t' arg.mentions) :
    callKind ⟨t, owner⟩ callee line asStatement args argKinds =
      callKind ⟨t', owner⟩ callee line asStatement args argKinds := by
  simp only [callKind, runtimeCall, hcallee.1, ruleArguments_agree hargs]

theorem exprKinds_congr {env env' : Env} {es : List Expr}
    (h : ∀ e ∈ es, exprKind env line e = exprKind env' line e) :
    exprKinds env line es = exprKinds env' line es := by
  induction es with
  | nil => rfl
  | cons e es ih =>
    obtain ⟨hhead, htail⟩ := List.forall_mem_cons.mp h
    rw [exprKinds, exprKinds, hhead, ih htail]

theorem exprKind_agree {e : Expr} (h : t.Agree t' e.mentions) :
    exprKind ⟨t, owner⟩ line e = exprKind ⟨t', owner⟩ line e := by
  induction e with
  | literal value => rfl
  | name id => simp only [exprKind, resolve_agree (agree_name h)]
  | unary sign operand ih => simp only [exprKind, ih h]
  | binary left op right ihl ihr =>
    obtain ⟨hleft, hright⟩ := agree_binary h
    simp only [exprKind, ihl hleft, ihr hright]
  | call callee args ih =>
    obtain ⟨hcallee, hargs⟩ := agree_call h
    have hkinds : exprKinds ⟨t, owner⟩ line args = exprKinds ⟨t', owner⟩ line args :=
      exprKinds_congr fun arg harg => ih arg harg (hargs arg harg)
    rw [exprKind, exprKind, hkinds, callKind_agree hcallee hargs]
  | index list position ih =>
    obtain ⟨hlist, hposition⟩ := agree_index h
    simp only [exprKind, elementKind_agree hlist, ih hposition]
  | list items ih => rfl

theorem exprKinds_agree {es : List Expr} (h : ∀ e ∈ es, t.Agree t' e.mentions) :
    exprKinds ⟨t, owner⟩ line es = exprKinds ⟨t', owner⟩ line es :=
  exprKinds_congr fun e he => exprKind_agree (h e he)

end Expressions

section Statements

theorem itemsKind_agree {first : Option Kind} {items : List Expr}
    (h : ∀ item ∈ items, t.Agree t' item.mentions) :
    itemsKind ⟨t, owner⟩ line first items = itemsKind ⟨t', owner⟩ line first items := by
  induction items generalizing first with
  | nil => rfl
  | cons item items ih =>
    obtain ⟨hitem, hitems⟩ := List.forall_mem_cons.mp h
    simp only [itemsKind, exprKind_agree hitem, ih hitems]

theorem assignedKind_agree {value : Expr} (h : t.Agree t' value.mentions) :
    assignedKind ⟨t, owner⟩ line value = assignedKind ⟨t', owner⟩ line value := by
  cases value with
  | list items =>
    simp only [assignedKind, itemsKind_agree (agree_list h)]
  | _ => exact exprKind_agree h

theorem assignTarget_agree {target : Target} {value : Expr} {declared : Option Kind}
    (htarget : t.Agree t' target.names) (helement : ∀ e ∈ target.exprs, t.Agree t' e.mentions)
    (hvalue : t.Agree t' value.mentions) : assignTarget ⟨t, owner⟩ target value declared line =
      assignTarget ⟨t', owner⟩ target value declared line := by
  cases target with
  | name id =>
    have hid : t.AgreeOn t' id := htarget id (List.mem_singleton_self _)
    simp only [assignTarget, assignName, checkAssignable, hid.isKnown, assignedKind_agree hvalue]
  | element list position =>
    obtain ⟨hlist, hposition⟩ := agree_index (helement _ (List.mem_singleton_self _))
    simp only [assignTarget, assignElement, elementKind_agree hlist, exprKind_agree hposition,
      exprKind_agree hvalue]

theorem checkBounds_agree {bounds : Bounds} (h : ∀ e ∈ bounds.exprs, t.Agree t' e.mentions) :
    checkBounds ⟨t, owner⟩ line bounds = checkBounds ⟨t', owner⟩ line bounds := by
  obtain ⟨start, stop, step⟩ := bounds
  have hstop : t.Agree t' stop.mentions := h stop (by simp [Bounds.exprs])
  cases start with
  | none => simp only [checkBounds, checkBound, exprKind_agree hstop]
  | some start =>
    have hstart : t.Agree t' start.mentions := h start (by simp [Bounds.exprs])
    simp only [checkBounds, checkBound, exprKind_agree hstart, exprKind_agree hstop]

theorem checkStatement_agree {value : Expr} (h : t.Agree t' value.mentions) :
    checkStatement ⟨t, owner⟩ line value = checkStatement ⟨t', owner⟩ line value := by
  cases value with
  | call callee args =>
    obtain ⟨hcallee, hargs⟩ := agree_call h
    simp only [checkStatement, exprKinds_agree hargs, callKind_agree hcallee hargs]
  | _ => simp only [checkStatement, exprKind_agree h]

theorem inferReturn_agree {value : Option Expr} (h : ∀ e ∈ value, t.Agree t' e.mentions) :
    inferReturn ⟨t, owner⟩ value line = inferReturn ⟨t', owner⟩ value line := by
  cases value with
  | none => rfl
  | some value => simp only [inferReturn, givenKind, exprKind_agree (h value rfl)]

mutual

theorem inferStmt_agree (stmt : Stmt) (hnames : t.Agree t' stmt.names)
    (hexprs : ∀ e ∈ stmt.exprs, t.Agree t' e.mentions) :
    inferStmt ⟨t, owner⟩ stmt = inferStmt ⟨t', owner⟩ stmt := by
  cases stmt with
  | assign line target value declared binding =>
    obtain ⟨helement, hvalue⟩ := List.forall_mem_append.mp hexprs
    simp only [inferStmt, assignTarget_agree hnames helement
      (hvalue value (List.mem_singleton_self _))]
  | conditional line condition thenBody elseBody =>
    obtain ⟨hthen, helse⟩ := agree_append.mp hnames
    obtain ⟨hcondition, hblocks⟩ := List.forall_mem_cons.mp hexprs
    obtain ⟨hthen', helse'⟩ := List.forall_mem_append.mp hblocks
    simp only [inferStmt, checkCondition, exprKind_agree hcondition,
      inferBlock_agree thenBody hthen hthen', inferBlock_agree elseBody helse helse']
  | loop line var bounds binding body =>
    obtain ⟨_, hbody⟩ := agree_cons.mp hnames
    obtain ⟨hbounds, hbody'⟩ := List.forall_mem_append.mp hexprs
    simp only [inferStmt, checkBounds_agree hbounds, inferBlock_agree body hbody hbody']
  | expr line value =>
    simp only [inferStmt, checkStatement_agree (hexprs value (List.mem_singleton_self _))]
  | give line value =>
    have hvalue : ∀ e ∈ value, t.Agree t' e.mentions := by
      rintro e rfl
      exact hexprs e (List.mem_singleton_self _)
    simp only [inferStmt, inferReturn_agree hvalue]
  | function | global | comment | blank | pass | stop | skip => rfl

theorem inferBlock_agree (stmts : List Stmt) (hnames : t.Agree t' (namesIn stmts))
    (hexprs : ∀ e ∈ exprsIn stmts, t.Agree t' e.mentions) :
    inferBlock ⟨t, owner⟩ stmts = inferBlock ⟨t', owner⟩ stmts := by
  cases stmts with
  | nil => rfl
  | cons stmt stmts =>
    obtain ⟨hhead, htail⟩ := agree_append.mp hnames
    obtain ⟨hhead', htail'⟩ := List.forall_mem_append.mp hexprs
    simp only [inferBlock, inferStmt_agree stmt hhead hhead', inferBlock_agree stmts htail htail']

end

end Statements

section Programs

/-- The tables say the same of the names in a function. -/
structure Task.Agrees (t t' : CallTable) (task : Task) : Prop where
  name : t.AgreeOn t' task.head.name
  names : t.Agree t' (namesIn task.body)
  exprs : ∀ e ∈ exprsIn task.body, t.Agree t' e.mentions

variable {globals : Variables} {tasks : List Task}

theorem inferFunction_agree {task : Task} (h : task.Agrees t t') :
    inferFunction t globals task = inferFunction t' globals task := by
  simp only [inferFunction, inferBlock_agree task.body h.names h.exprs]

theorem round_agree (h : ∀ task ∈ tasks, task.Agrees t t') :
    round t globals tasks = round t' globals tasks := by
  induction tasks with
  | nil => rfl
  | cons task tasks ih =>
    obtain ⟨htask, htasks⟩ := List.forall_mem_cons.mp h
    simp only [round, inferFunction_agree htask, ih htasks]

theorem rounds_agree (h : ∀ task ∈ tasks, task.Agrees t t') (s : State) :
    rounds t globals tasks s = rounds t' globals tasks s := by
  fun_induction rounds t globals tasks s with
  | case1 tasks s stall s₁ hround => rw [rounds, ← round_agree h, hround]
  | case2 tasks s progress s₁ hround hblocker =>
    rw [rounds, ← round_agree h, hround]; simp only [hblocker]
  | case3 tasks s progress s₁ hround blocker hblocker hlt more last hmore ih =>
    have hremaining : ∀ task ∈ progress.remaining, task.Agrees t t' :=
      fun task htask => h task ((round_attains hround).remaining.subset htask)
    rw [rounds, ← round_agree h, hround]
    simp only [hblocker, hlt, if_true, ← ih hremaining, hmore]
  | case4 tasks s progress s₁ hround blocker hblocker hlt =>
    rw [rounds, ← round_agree h, hround]
    simp only [hblocker, hlt, if_false]

theorem collect_agree {seen : Functions} (h : ∀ task ∈ tasks, task.Agrees t t') :
    collect t seen tasks = collect t' seen tasks := by
  induction tasks generalizing seen with
  | nil => rfl
  | cons task tasks ih =>
    obtain ⟨htask, htasks⟩ := List.forall_mem_cons.mp h
    simp only [collect, htask.name.isKnown, ih htasks]

variable {stmts : List Stmt}

theorem inferGlobals_agree (hnames : t.Agree t' (namesIn stmts))
    (hexprs : ∀ e ∈ exprsIn stmts, t.Agree t' e.mentions) :
    inferGlobals t stmts = inferGlobals t' stmts := by
  induction stmts with
  | nil => rfl
  | cons stmt stmts ih =>
    obtain ⟨hhead, htail⟩ := agree_append.mp hnames
    obtain ⟨hhead', htail'⟩ := List.forall_mem_append.mp hexprs
    cases stmt with
    | assign => simp only [inferGlobals, inferStmt_agree _ hhead hhead', ih htail htail']
    | _ => simp only [inferGlobals, ih htail htail']

/-- The functions are where they were when the globals are resolved. -/
theorem ends_inferGlobals_tasks {found : List Stmt} {s s' : State}
    (h : Ends (inferGlobals t stmts) s (.ok found) s') :
    tasksOf found = tasksOf stmts := by
  rw [inferGlobals_eq, ends_map_ok] at h
  obtain ⟨resolved, hresolved, rfl⟩ := h
  exact tasksOf_refill stmts
    (ends_inferBlock_assign (fun stmt hstmt => (List.mem_filter.mp hstmt).2) hresolved).2

theorem tasksOf_agree (hnames : t.Agree t' (namesIn stmts))
    (hexprs : ∀ e ∈ exprsIn stmts, t.Agree t' e.mentions) :
    ∀ task ∈ tasksOf stmts, task.Agrees t t' := by
  induction stmts with
  | nil => exact List.forall_mem_nil _
  | cons stmt stmts ih =>
    obtain ⟨hhead, htail⟩ := agree_append.mp hnames
    obtain ⟨hhead', htail'⟩ := List.forall_mem_append.mp hexprs
    cases stmt with
    | function line head signature hoisted body =>
      obtain ⟨hname, hbound⟩ := agree_cons.mp hhead
      simp only [agree_append] at hbound
      exact List.forall_mem_cons.mpr ⟨⟨hname, hbound.2.2, hhead'⟩, ih htail htail'⟩
    | _ => exact ih htail htail'

theorem inferModule_agree (hnames : t.Agree t' (namesIn stmts))
    (hexprs : ∀ e ∈ exprsIn stmts, t.Agree t' e.mentions) (s : State) :
    endOf (inferModule t stmts) s = endOf (inferModule t' stmts) s := by
  unfold inferModule
  rw [endOf_bind, endOf_bind, ← inferGlobals_agree hnames hexprs]
  rcases hglobals : endOf (inferGlobals t stmts) s with ⟨stall | found, s₁⟩
  · rfl
  · have htasks : ∀ task ∈ tasksOf found, task.Agrees t t' := by
      rw [ends_inferGlobals_tasks hglobals]
      exact tasksOf_agree hnames hexprs
    have hrounds : ∀ globals, (fun s => rounds t globals (tasksOf found) s) =
        fun s => rounds t' globals (tasksOf found) s := fun globals => funext (rounds_agree htasks)
    simp only [hrounds]

variable {p : Program}

/-- Inference depends on what the table says of the names in the program alone. -/
theorem infer_agree (h : t.Agree t' p.mentions) : infer t p = infer t' p := by
  have hnames := (agree_append.mp h).1
  have hexprs : ∀ e ∈ exprsIn p.statements, t.Agree t' e.mentions := by
    intro e he
    refine agree_mentions h e ?_
    rw [exprsIn_append]
    exact List.mem_append_right _ he
  have hmodule := inferModule_agree hnames hexprs
  unfold endOf at hmodule
  simp only [infer, collect_agree (tasksOf_agree hnames hexprs), hmodule]

end Programs

end Inference

namespace Sketch

open CallTable

variable {t t' : CallTable} {floatType : FloatType} {line : Nat}

section Expressions

theorem expressions_congr {style style' : Style} {es : List Expr}
    (h : ∀ e ∈ es, expression style line e = expression style' line e) :
    expressions style line es = expressions style' line es := by
  induction es with
  | nil => rfl
  | cons e es ih =>
    obtain ⟨hhead, htail⟩ := List.forall_mem_cons.mp h
    rw [expressions, expressions, hhead, ih htail]

/-- The names of types are no matter of the table. -/
theorem typeName_agree (t t' : CallTable) (kind : Kind) :
    typeName ⟨t, floatType⟩ kind line = typeName ⟨t', floatType⟩ kind line := by
  cases kind <;> rfl

theorem call_agree {callee : String} {args : List Expr} {texts : Writing (List String)}
    (h : t.AgreeOn t' callee) :
    call ⟨t, floatType⟩ line callee args texts = call ⟨t', floatType⟩ line callee args texts := by
  simp only [call, h.1, typeName_agree t t']

theorem expression_agree {e : Expr} (h : t.Agree t' e.mentions) :
    expression ⟨t, floatType⟩ line e = expression ⟨t', floatType⟩ line e := by
  induction e with
  | literal | name | list => rfl
  | unary sign operand ih => simp only [expression, ih h]
  | binary left op right ihl ihr =>
    obtain ⟨hleft, hright⟩ := agree_binary h
    simp only [expression, ihl hleft, ihr hright]
  | call callee args ih =>
    obtain ⟨hcallee, hargs⟩ := agree_call h
    rw [expression, expression, expressions_congr fun arg harg => ih arg harg (hargs arg harg),
      call_agree hcallee]
  | index list position ih => simp only [expression, ih (agree_index h).2]

theorem expressions_agree {es : List Expr} (h : ∀ e ∈ es, t.Agree t' e.mentions) :
    expressions ⟨t, floatType⟩ line es = expressions ⟨t', floatType⟩ line es :=
  expressions_congr fun e he => expression_agree (h e he)

end Expressions

section Statements

theorem assignment_agree {target : Target} {value : Expr} {binding : Binding}
    (htarget : ∀ e ∈ target.exprs, t.Agree t' e.mentions) (hvalue : t.Agree t' value.mentions) :
    assignment ⟨t, floatType⟩ line target value binding =
      assignment ⟨t', floatType⟩ line target value binding := by
  have htext : targetText ⟨t, floatType⟩ line target = targetText ⟨t', floatType⟩ line target := by
    cases target with
    | name => rfl
    | element list position =>
      have hposition := (agree_index (htarget _ (List.mem_singleton_self _))).2
      simp only [targetText, expression_agree hposition]
  have hitems : ∀ items, value = .list items →
      expressions ⟨t, floatType⟩ line items = expressions ⟨t', floatType⟩ line items := by
    rintro items rfl
    exact expressions_agree (agree_list hvalue)
  cases value with
  | list items =>
    simp only [assignment, htext, hitems items rfl, typeName_agree t t', expression_agree hvalue]
  | _ => simp only [assignment, htext, typeName_agree t t', expression_agree hvalue]

theorem loopHeader_agree {var : String} {bounds : Bounds} {binding : Binding}
    (h : ∀ e ∈ bounds.exprs, t.Agree t' e.mentions) :
    loopHeader ⟨t, floatType⟩ line var bounds binding =
      loopHeader ⟨t', floatType⟩ line var bounds binding := by
  obtain ⟨start, stop, step⟩ := bounds
  have hstop : t.Agree t' stop.mentions := h stop (by simp [Bounds.exprs])
  cases start with
  | none => simp only [loopHeader, expression_agree hstop, typeName_agree t t']
  | some start =>
    have hstart : t.Agree t' start.mentions := h start (by simp [Bounds.exprs])
    simp only [loopHeader, expression_agree hstart, expression_agree hstop, typeName_agree t t']

theorem exprLines_agree {value : Expr} (h : t.Agree t' value.mentions) :
    exprLines ⟨t, floatType⟩ line value = exprLines ⟨t', floatType⟩ line value := by
  cases value with
  | call callee args =>
    obtain ⟨hcallee, hargs⟩ := agree_call h
    have hprint : isPrint ⟨t, floatType⟩ callee = isPrint ⟨t', floatType⟩ callee := by
      simp only [isPrint, hcallee.1]
    simp only [exprLines, hprint, expressions_agree hargs, expression_agree h]
  | _ => simp only [exprLines, expression_agree h]

theorem functionHeader_agree (t t' : CallTable) (head : FunctionHead) (signature : Signature) :
    functionHeader ⟨t, floatType⟩ line head signature =
      functionHeader ⟨t', floatType⟩ line head signature := by
  have hparams : ∀ params kinds,
      parameterTexts ⟨t, floatType⟩ line params kinds =
        parameterTexts ⟨t', floatType⟩ line params kinds := by
    intro params kinds
    induction params generalizing kinds with
    | nil => rfl
    | cons param params ih =>
      cases kinds with
      | nil => rfl
      | cons kind kinds => simp only [parameterTexts, typeName_agree t t', ih]
  simp only [functionHeader, hparams, typeName_agree t t']

theorem declarations_agree (t t' : CallTable) (hoisted : List (String × Kind)) :
    declarations ⟨t, floatType⟩ line hoisted = declarations ⟨t', floatType⟩ line hoisted := by
  induction hoisted with
  | nil => rfl
  | cons v hoisted ih => simp only [declarations, typeName_agree t t', ih]

mutual

theorem emitStmt_agree (stmt : Stmt) (h : ∀ e ∈ stmt.exprs, t.Agree t' e.mentions) (depth : Nat)
    (opening : String) (page : Page) :
    emitStmt ⟨t, floatType⟩ depth opening stmt page =
      emitStmt ⟨t', floatType⟩ depth opening stmt page := by
  cases stmt with
  | function line head signature hoisted body =>
    have hbody := emitBlock_agree body h
    have hrest : ∀ {stmt rest}, body = stmt :: rest →
        ∀ e ∈ exprsIn rest, t.Agree t' e.mentions := by
      rintro stmt rest rfl
      exact fun e he => h e (List.mem_append_right _ he)
    cases signature with
    | none => rfl
    | some signature =>
      unfold emitStmt
      simp only [functionHeader_agree t t', declarations_agree t t']
      refine bind_congr fun header => bind_congr fun names => ?_
      split
      · next rest => simp only [emitBlock_agree rest (hrest rfl)]
      · simp only [hbody]
  | assign line target value declared binding =>
    obtain ⟨htarget, hvalue⟩ := List.forall_mem_append.mp h
    simp only [emitStmt, assignment_agree htarget (hvalue value (List.mem_singleton_self _))]
  | conditional line condition thenBody elseBody =>
    obtain ⟨hcondition, hblocks⟩ := List.forall_mem_cons.mp h
    obtain ⟨hthen, helse⟩ := List.forall_mem_append.mp hblocks
    simp only [emitStmt, expression_agree hcondition, emitBlock_agree thenBody hthen,
      emitBlock_agree elseBody helse]
  | loop line var bounds binding body =>
    obtain ⟨hbounds, hbody⟩ := List.forall_mem_append.mp h
    simp only [emitStmt, loopHeader_agree hbounds, emitBlock_agree body hbody]
  | expr line value => simp only [emitStmt, exprLines_agree (h value (List.mem_singleton_self _))]
  | give line value =>
    cases value with
    | none => rfl
    | some value => simp only [emitStmt, expression_agree (h value (List.mem_singleton_self _))]
  | comment line style text => cases style <;> rfl
  | global | blank | pass | stop | skip => rfl

theorem emitBlock_agree (stmts : List Stmt) (h : ∀ e ∈ exprsIn stmts, t.Agree t' e.mentions)
    (depth : Nat) (opening : String) (joins : Bool) (page : Page) :
    emitBlock ⟨t, floatType⟩ depth opening joins stmts page =
      emitBlock ⟨t', floatType⟩ depth opening joins stmts page := by
  cases stmts with
  | nil => rfl
  | cons stmt stmts =>
    obtain ⟨hhead, htail⟩ := List.forall_mem_append.mp h
    have hstmt := emitStmt_agree stmt hhead
    have hstmts := emitBlock_agree stmts htail
    unfold emitBlock
    split
    · rfl
    · next heq => 
      cases heq
      simp only [hstmts]
    · next heq => 
      cases heq
      simp only [hstmt, hstmts]

end

theorem generate_agree {p : Program}
    (h : ∀ e ∈ exprsIn (p.header ++ p.statements), t.Agree t' e.mentions) (width : Nat) :
    generate ⟨t, floatType⟩ width p = generate ⟨t', floatType⟩ width p := by
  rw [exprsIn_append] at h
  obtain ⟨hheader, hstatements⟩ := List.forall_mem_append.mp h
  simp only [generate, page, emitBlock_agree p.header hheader,
    emitBlock_agree p.statements hstatements]

end Statements

end Sketch

namespace Translator

variable {t t' : Translator} {source : String}

/-- The same text leads two translators with one layout to the same sketch or refusal, and to the
same reports, if their tables say the same of the names in the program. -/
theorem report_agree (htable : t.table.Built)
    (hwidth : t.config.indentWidth = t'.config.indentWidth)
    (hfloat : t.config.floatType = t'.config.floatType)
    (h : ∀ p, Program.ofSource source = .ok p → t.table.Agree t'.table p.mentions) :
    t.report source = t'.report source := by
  have hprogram : ∀ p, Program.ofSource source = .ok p →
      t.translateProgram source p = t'.translateProgram source p := by
    intro p hsource
    have hinfer := Inference.infer_agree (h p hsource)
    unfold translateProgram
    rw [← hinfer]
    rcases hresult : Inference.infer t.table p with ⟨e | p', events⟩
    · rfl
    · have hok : (Inference.infer t.table p).1 = .ok p' := by rw [hresult]
      have hgenerate : t.generate p' = t'.generate p' := by
        have hbare := Inference.infer_bare htable.sound (Program.wellFormed_of_source hsource) hok
        have hmentions : ∀ e ∈ exprsIn (p'.header ++ p'.statements),
            t.table.Agree t'.table e.mentions := by
          rw [Program.exprs_of_bare hbare]
          exact CallTable.agree_mentions (h p hsource)
        simp only [generate, style, hfloat, hwidth, Sketch.generate_agree hmentions]
      simp only [hgenerate]
  have htokens : ∀ tokens, Token.tokenize source = .ok tokens →
      t.translateTokens source tokens = t'.translateTokens source tokens := by
    intro tokens htokens
    unfold translateTokens
    cases hparsed : Program.ofTokens tokens source with
    | error e => rfl
    | ok p =>
      have hsource : Program.ofSource source = .ok p := by
        rw [Program.ofSource, htokens]
        exact hparsed
      simp only [hprogram p hsource]
  unfold report
  rcases hrun : (Token.Lexer.start source.toList).run with ⟨e | tokens, lexer⟩
  · rfl
  · have htokenize : Token.tokenize source = .ok tokens := by rw [Token.tokenize, hrun]
    simp only [htokens tokens htokenize]

/-- Entries that a configuration adds make no difference to a program in which
their names do not occur. -/
theorem report_conservative {config : Config}
    (hextend : (CallTable.builtin.extend config.calls config.constants).2 = none)
    (hnames : ∀ p, Program.ofSource source = .ok p → ∀ name ∈ config.added, name ∉ p.mentions) :
    (ofConfig config).map (·.report source) =
      (ofConfig { config with calls := [], constants := [] }).map (·.report source) := by
  obtain ⟨table, htable⟩ : ∃ table, CallTable.ofConfig config = .ok table := by
    rcases hresult : CallTable.builtin.extend config.calls config.constants with ⟨table, refusal⟩
    rw [hresult] at hextend
    obtain rfl : refusal = none := hextend
    exact ⟨table, by simp [CallTable.ofConfig, hresult]⟩
  have hnone : CallTable.ofConfig { config with calls := [], constants := [] } = .ok .builtin := rfl
  have hagree : ∀ p, Program.ofSource source = .ok p → table.Agree .builtin p.mentions :=
    fun p hsource x hx => CallTable.ofConfig_agrees htable fun hadded =>
    hnames p hsource x hadded hx
  have hreport : report ⟨config, table⟩ source =
      report ⟨{ config with calls := [], constants := [] }, .builtin⟩ source :=
    report_agree (CallTable.built_of_ofConfig htable) rfl rfl hagree
  simp only [ofConfig, htable, hnone]
  unfold Config.validate
  split
  · rfl
  · exact congrArg Except.ok hreport

/-- A configuration with a call and a constant of its own. -/
def extended : Config := { (default : Config) with
  calls := [⟨"blink", some "blinkLed", none⟩], constants := [⟨"LED_RED", .int⟩] }

theorem report_conservative_extended :
    (CallTable.builtin.extend extended.calls extended.constants).2 = none ∧
    (∀ name ∈ extended.added, name ∉ Program.sample.mentions) ∧
    (ofConfig extended).map (·.report Program.sampleText) =
      (ofConfig { extended with calls := [], constants := [] }).map
        (·.report Program.sampleText) := by
  have hextend : (CallTable.builtin.extend extended.calls extended.constants).2 = none := by decide
  have hnames : ∀ name ∈ extended.added, name ∉ Program.sample.mentions := by decide
  refine ⟨hextend, hnames, report_conservative hextend fun p hsource => ?_⟩
  obtain rfl := Except.ok.inj (Program.ofSource_sample.symm.trans hsource)
  exact hnames

end Translator

end Sketchwright
