import Sketchwright.Proofs.Examination

/-! Values are scalar. Lists and the result of a call without one are kinds as well, but they
never become the kind of a value: whatever state a run of inference comes to, its variables
hold scalars or lists of scalars, its functions take scalars, and an expression that has a
kind there has a scalar one. -/

namespace Sketchwright

/-- The parameters are scalar, and the result if there is one. -/
structure Signature.Proper (signature : Signature) : Prop where
  params : ∀ kind ∈ signature.params, kind.isScalar = true
  returns : Inference.Returnable signature.returns

/-- What is declared is a scalar or a list of scalars. -/
def Binding.Proper (binding : Binding) : Prop :=
  ∀ kind, binding = .declare kind → kind.isStorable = true

theorem Binding.proper_declare {kind : Kind} (h : kind.isStorable = true) :
    (Binding.declare kind).Proper := by
  rintro _ ⟨⟩
  exact h

theorem Binding.proper_reassign : Binding.reassign.Proper := nofun

/-- Statements that have neither slots nor blocks. -/
def Stmt.isSlotless : Stmt → Bool
  | .function .. | .assign .. | .conditional .. | .loop .. => false
  | _ => true

mutual

/-- The kinds in the slots of the statement, and of the statements in its blocks, are of the sort
that belongs in their place. -/
inductive Stmt.Proper : Stmt → Prop
  | function {line head signature hoisted body}
    (hsignature : ∀ known, signature = some known → known.Proper)
      (hhoisted : ∀ v ∈ hoisted, v.2.isScalar = true) (hbody : AllProper body) :
      Stmt.Proper (.function line head signature hoisted body)
  | assign {line target value declared binding} (hbinding : binding.Proper) :
      Stmt.Proper (.assign line target value declared binding)
  | conditional {line condition thenBody elseBody} (hthen : AllProper thenBody)
    (helse : AllProper elseBody) :
      Stmt.Proper (.conditional line condition thenBody elseBody)
  | loop {line var bounds binding body} (hbinding : binding.Proper) (hbody : AllProper body) :
      Stmt.Proper (.loop line var bounds binding body)
  | slotless {stmt} (hstmt : stmt.isSlotless = true) : Stmt.Proper stmt

inductive AllProper : List Stmt → Prop
  | nil : AllProper []
  | cons {stmt stmts} (hhead : stmt.Proper) (htail : AllProper stmts) : AllProper (stmt :: stmts)

end

namespace Inference

section Rules

variable {c : Callees} {returns : Option Kind}

/-- An assigned value is a scalar or a list of scalars. -/
theorem Assigned.isStorable {names : Names} {value : Expr} {kind : Kind}
    (h : Assigned c names value kind) :
    kind.isStorable = true := by
  cases h with
  | value hkind => exact Kind.isStorable_of_isScalar hkind.isScalar
  | list hne hitems =>
    obtain ⟨item, hitem⟩ := List.exists_mem_of_ne_nil _ hne
    exact (hitems item hitem).isScalar

mutual

/-- The rules fill the slots of a statement with kinds of the sort that belongs there. -/
theorem Resolves.proper {fr fr' : Frame} {stmt stmt' : Stmt} {readings : List Reading}
    (h : Resolves c returns fr stmt stmt' fr' readings) : stmt'.Proper := by
  cases h with
  | first hvalue _ _ hdeclares =>
    exact .assign (Binding.proper_declare (hdeclares.isStorable hvalue.isStorable))
  | again | hoist | element => exact .assign Binding.proper_reassign
  | conditional _ _ hthen helse => exact .conditional hthen.proper helse.proper
  | loopAgain _ _ _ hloop => exact .loop Binding.proper_reassign hloop.proper
  | loopFirst _ _ _ hloop => exact .loop (Binding.proper_declare rfl) hloop.proper
  | call | expr | give | bare | share => exact .slotless rfl
  | inert hstmt =>
    cases stmt with
    | comment | blank | pass | stop | skip => exact .slotless rfl
    | _ => cases hstmt

theorem ResolvesAll.proper {fr fr' : Frame} {stmts stmts' : List Stmt} {readings : List Reading}
    (h : ResolvesAll c returns fr stmts stmts' fr' readings) : AllProper stmts' := by
  cases h with
  | nil => exact .nil
  | cons hhead htail => exact .cons hhead.proper htail.proper

end

/-- The assignments of a module declare globals of the sort that belongs there. -/
theorem ResolvesModule.proper {fr fr' : Frame} {stmts stmts' : List Stmt} {readings : List Reading}
    (h : ResolvesModule c fr stmts stmts' fr' readings) :
    ∀ stmt ∈ stmts', stmt.isFunction = false → stmt.Proper := by
  induction h with
  | nil => exact List.forall_mem_nil _
  | assign hhead _ ih => exact List.forall_mem_cons.mpr ⟨fun _ => hhead.proper, ih⟩
  | @other _ stmt _ _ _ _ hassign hlevel _ ih =>
    refine List.forall_mem_cons.mpr ⟨fun hfunction => ?_, ih⟩
    cases stmt with
    | comment | blank | pass => exact .slotless rfl
    | function => cases hfunction
    | assign => cases hassign
    | conditional | loop | expr | give | global | stop | skip => cases hlevel

end Rules

section Statements

variable {env : Env} {s s' : State}

/-- The statements that inference comes to: assignments of the module, and statements of a function
in which no other function is defined. -/
def Env.Admits (env : Env) (stmt : Stmt) : Prop :=
  match env.owner with
  | none => stmt.isAssign = true
  | some _ => stmt.isPlain = true

theorem Env.admits_of_isPlain {owner : Owner} (howner : env.owner = some owner) {stmt : Stmt}
    (hplain : stmt.isPlain = true) : env.Admits stmt := by
  unfold Env.Admits
  rwa [howner]

theorem Resolved.proper_stmt {returns : Option Kind} {stmt found : Stmt}
    (h : Resolved env returns s stmt found s') : found.Proper := by
  obtain ⟨signatures, hfits⟩ := s'.functions.exists_fits
  obtain ⟨_, hresolves⟩ := h.rules hfits
  exact hresolves.proper

/-- What resolves a statement leads from a proper state to a proper state and
fills slots properly. -/
theorem Runs.proper {reason : Reason} {α : Type} {x : Infer α} {returns : Option Kind} {stmt : Stmt}
    {found : α → Stmt}
    (hruns : Runs reason x s fun a s' => Resolved env returns s stmt (found a) s') (hs : s.Proper)
    {a : α} (h : Ends x s (.ok a) s') : s'.Proper ∧ (found a).Proper :=
  ⟨⟨(hruns.effect h).proper hs.functions, (hruns.ok h).proper⟩, (hruns.ok h).proper_stmt⟩

/-- An assignment leads from a proper state to a proper state, and gets a proper binding. -/
theorem inferAssign_proper (htable : env.table.Sound) (hs : s.Proper) {line : Nat} {target : Target}
    {value : Expr} {declared : Option Kind} {b : Binding} {found : Stmt}
    (h : Ends (inferStmt env (.assign line target value declared b)) s (.ok found) s') :
    s'.Proper ∧ found.Proper := by
  obtain ⟨binding, s₁, hassign, hpure⟩ := ends_bind_ok.mp h
  obtain ⟨heq, rfl⟩ := ends_pure.mp hpure
  cases heq
  cases target with
  | name id =>
    have hruns : Runs _ (assignName env id value declared line) s fun binding s' =>
      Resolved env none s (.assign line (.name id) value declared b)
        (.assign line (.name id) value declared binding) s' := assignName_runs htable hs
    exact hruns.proper hs hassign
  | element list position =>
    have hruns : Runs _ (assignElement env list position value line) s fun binding s' =>
      Resolved env none s (.assign line (.element list position) value declared b)
        (.assign line (.element list position) value declared binding) s' :=
        assignElement_runs htable hs
    exact hruns.proper hs hassign

/-- So does every statement that inference comes to. -/
theorem inferStmt_proper (htable : env.table.Sound) (hs : s.Proper) {stmt found : Stmt}
    (hstmt : env.Admits stmt) (h : Ends (inferStmt env stmt) s (.ok found) s') :
    s'.Proper ∧ found.Proper := by
  unfold Env.Admits at hstmt
  split at hstmt
  · cases stmt with
    | assign => exact inferAssign_proper htable hs h
    | _ => cases hstmt
  · next howner => exact (inferStmt_runs htable howner stmt hstmt s hs).proper hs h

theorem exprKind_proper (htable : env.table.Sound) (hs : s.Proper) {line : Nat} {e : Expr}
    {kind : Kind} (h : Ends (exprKind env line e) s (.ok kind) s') : s'.Proper := by
  have hruns : Runs _ (exprKind env line e) s _ := exprKind_runs htable e s hs
  exact hs.of_effect (hruns.effect h) (hruns.ok h).frame

theorem elementKind_proper (hs : s.Proper) {list : String} {line : Nat} {kind : Kind}
    (h : Ends (elementKind env list line) s (.ok kind) s') : s'.Proper := by
  have hruns : Runs NoReason (elementKind env list line) s _ := elementKind_runs env list line
  exact hs.of_effect (hruns.effect h) (hruns.ok h).1

/-- The items of a list are scalar. -/
theorem elementKind_scalar (htable : env.table.Sound) (hs : s.Proper) {list : String} {line : Nat}
    {kind : Kind} (h : Ends (elementKind env list line) s (.ok kind) s') :
    kind.isScalar = true := by
  have hruns : Runs NoReason (elementKind env list line) s _ := elementKind_runs env list line
  obtain ⟨_, _, _, hlist⟩ := hruns.ok h
  exact hs.frame.scope.kind? htable hlist

theorem checkCondition_proper (htable : env.table.Sound) (hs : s.Proper) {line : Nat}
    {condition : Expr}
    (h : Ends (checkCondition env line condition) s (.ok ()) s') : s'.Proper := by
  have hruns := checkCondition_runs line htable condition hs
  exact hs.of_effect (hruns.effect h) (hruns.ok h).1

/-- The head of a loop leads from a proper state to a proper state: it declares
nothing but an `int`. -/
theorem loopHead_proper (htable : env.table.Sound) (hs : s.Proper) {line : Nat} {var : String}
    {bounds : Bounds} {binding : Binding}
    (h : Ends (do checkBounds env line bounds; bindLoopVar var line) s (.ok binding) s') :
    s'.Proper := by
  obtain ⟨_, s₁, hbounds, hbind⟩ := ends_bind_ok.mp h
  have hruns := checkBounds_runs line htable bounds hs
  have hs₁ := hs.of_effect (hruns.effect hbounds) (hruns.ok hbounds).1
  have hbinds : Runs NoReason (bindLoopVar var line) s₁ _ := bindLoopVar_runs var
  refine ⟨(hbinds.effect hbind).proper hs₁.functions, ?_⟩
  rcases (hbinds.ok hbind).2 with ⟨_, _, rfl⟩ | ⟨_, _, rfl⟩
  · exact hs₁.frame
  · exact hs₁.frame.declare var line rfl

theorem State.Proper.enterLoop (hs : s.Proper) (var : String) :
    State.Proper { s with frame := s.frame.enterLoop var } :=
  ⟨hs.functions, hs.frame.scope, hs.frame.hoisted, hs.frame.returned⟩

end Statements

section Attempts

variable {table : CallTable} {globals : Variables} {task : Task} {tasks : List Task} {s s' : State}

/-- An attempt at the first of the functions that are to be finished leaves the
others to be finished. -/
theorem Pending.attempt (htable : table.Sound)
    (hglobals : ∀ v ∈ globals, v.2.kind.isStorable = true)
    (hpending : Pending (task :: tasks) s.functions) {r : Except Stall Stmt}
    (h : Ends (inferFunction table globals task) s r s') : Pending tasks s'.functions := by
  have hawaits := hpending.awaits task List.mem_cons_self
  have hplain := hpending.plain task List.mem_cons_self
  cases r with
  | ok stmt =>
    obtain ⟨hadvance, _⟩ := inferFunction_ok htable hglobals hplain hpending.proper hawaits h
    exact hpending.tail hadvance (List.Subset.refl _)
  | error stall =>
    obtain ⟨hadvance, _⟩ := inferFunction_error htable hglobals hplain hpending.proper hawaits h
    exact hpending.tail hadvance (List.nil_subset _)

/-- Where an attempt of a round begins, its function and those after it are to be finished. -/
theorem Pending.of_attempts (htable : table.Sound)
    (hglobals : ∀ v ∈ globals, v.2.kind.isStorable = true) (hpending : Pending tasks s.functions)
    (h : (task, s') ∈ attempts table globals tasks s) :
    ∃ rest, Pending (task :: rest) s'.functions := by
  induction tasks generalizing s with
  | nil => cases h
  | cons first tasks ih =>
    rcases List.mem_cons.mp h with heq | hrest
    · cases heq
      exact ⟨tasks, hpending⟩
    · refine ih ?_ hrest
      have hends := ends_endOf (Inference.attempt (inferFunction table globals first)) s
      rcases ends_attempt hends with ⟨_, _, hfirst⟩ | ⟨_, _, hfirst⟩ | ⟨_, _, hfirst⟩
      · exact hpending.attempt htable hglobals hfirst
      · exact hpending.attempt htable hglobals hfirst
      · exact hpending.attempt htable hglobals hfirst

/-- The same in a run of rounds. -/
theorem Tried.pending (htable : table.Sound) (hglobals : ∀ v ∈ globals, v.2.kind.isStorable = true)
    (htried : Tried table globals tasks s task s') (hpending : Pending tasks s.functions) :
    ∃ rest, Pending (task :: rest) s'.functions := by
  induction htried with
  | now h => exact hpending.of_attempts htable hglobals h
  | later hround _ ih =>
    obtain ⟨hadvance, hachieves, _⟩ := round_ends htable hglobals hpending hround
    exact ih ((hachieves _ rfl).pending hpending hadvance)

/-- A function that is finished has a proper definition. -/
theorem inferFunction_proper (htable : table.Sound)
    (hglobals : ∀ v ∈ globals, v.2.kind.isStorable = true) (hplain : arePlain task.body = true)
    (hs : s.functions.Proper) (hawaits : Awaits s.functions task) {stmt : Stmt}
    (h : Ends (inferFunction table globals task) s (.ok stmt) s') : stmt.Proper := by
  obtain ⟨slots, hslots, hreturns⟩ := hawaits
  obtain ⟨body, s₁, hrun, rfl, _⟩ := ends_inferFunction_ok hslots h
  obtain ⟨_, hbody, _⟩ := hrun.runs htable hglobals hplain hs hslots hreturns
  obtain ⟨hframe, hrules⟩ := hbody body rfl
  obtain ⟨signatures, hfits⟩ := s₁.functions.exists_fits
  obtain ⟨_, hresolves⟩ := hrules hfits
  refine .function ?_ hframe.hoisted hresolves.proper
  rintro _ ⟨⟩
  exact ⟨Slots.paramKinds_scalar (hs hslots), resultKind_returnable (hs hslots) hframe⟩

end Attempts

/-- In a run of inference on the program an attempt at the function begins in the state `s`. -/
structure Begins (table : CallTable) (p : Program) (task : Task) (s : State) : Prop where
  collected : ∃ functions, collect table [] (tasksOf p.statements) = .ok functions
  module : ∃ stmts, Ends (inferGlobals table p.statements) (start p) (.ok stmts)
    (afterGlobals table p)
  tried : Tried table (globals table p) (tasksOf p.statements) (afterGlobals table p) task s

/-- The states in which a run of inference comes to an expression or a statement: where the module
and the bodies of functions start, after an expression, the name of a list or a statement that is
accepted there, after the head of a loop, and inside a branch or a loop whose head is accepted. -/
inductive Arises (table : CallTable) (p : Program) : Env → State → Prop
  | module : Arises table p ⟨table, none⟩ (start p)
  | body {task s slots} (hbegins : Begins table p task s)
    (hslots : s.functions.find? task.name = some slots)
      (hopen : slots.openParam? = none) :
      Arises table p (task.env table slots)
      { s with frame := task.start (globals table p) slots.paramKinds }
  | expr {env s s' line e kind} (h : Arises table p env s)
    (hends : Ends (exprKind env line e) s (.ok kind) s') :
      Arises table p env s'
  | list {env s s' line list kind} (h : Arises table p env s)
      (hends : Ends (elementKind env list line) s (.ok kind) s') : Arises table p env s'
  | stmt {env s s' stmt found} (h : Arises table p env s) (hstmt : env.Admits stmt)
      (hends : Ends (inferStmt env stmt) s (.ok found) s') : Arises table p env s'
  | branch {env s s' line condition} (h : Arises table p env s)
      (hends : Ends (checkCondition env line condition) s (.ok ()) s') :
      Arises table p env { s' with frame := s'.frame.enter }
  | head {env s s' line var bounds binding} (h : Arises table p env s)
      (hends : Ends (do checkBounds env line bounds; bindLoopVar var line) s (.ok binding) s') :
      Arises table p env s'
  | loop {env s} (h : Arises table p env s) (var : String) :
      Arises table p env { s with frame := s.frame.enterLoop var }

section Visits

variable {table : CallTable} {p : Program} {env : Env} {s s' : State}

/-- The bounds of a loop are visited in states that arise. -/
theorem Arises.boundVisits (h : Arises table p env s) {line : Nat} {bounds : Bounds}
    (hends : Ends (checkBounds env line bounds) s (.ok ()) s') :
    ∀ visit ∈ boundVisits env line bounds s, Arises table p env visit.state := by
  obtain ⟨_ | start, stop, step⟩ := bounds
  · exact List.forall_mem_singleton.mpr h
  · obtain ⟨_, s₁, hstart, _⟩ := ends_bind_ok.mp hends
    simp only [Inference.boundVisits, hstart.after_eq]
    refine List.forall_mem_cons.mpr ⟨h, List.forall_mem_singleton.mpr ?_⟩
    obtain ⟨kind, s₀, hkind, hcheck⟩ := ends_bind_ok.mp hstart
    split at hcheck
    · cases (ends_fail.mp hcheck).1
    · obtain ⟨_, rfl⟩ := ends_pure.mp hcheck
      exact h.expr hkind

theorem Arises.visits_assign (h : Arises table p env s) {line : Nat} {target : Target}
    {value : Expr} {declared : Option Kind} {b : Binding} {found : Stmt}
    (hstmt : env.Admits (.assign line target value declared b))
    (hends : Ends (inferStmt env (.assign line target value declared b)) s (.ok found) s') :
    ∀ visit ∈ visits env s (.assign line target value declared b),
      Arises table p env visit.state := by
  have hlast := h.stmt hstmt hends
  obtain ⟨binding, s₁, hassign, hpure⟩ := ends_bind_ok.mp hends
  obtain ⟨_, rfl⟩ := ends_pure.mp hpure
  cases target with
  | name id =>
    have hname : Ends (assignName env id value declared line) s (.ok binding) s' := hassign
    simp only [visits, hname.after_eq]
    exact List.forall_mem_cons.mpr ⟨h, List.forall_mem_singleton.mpr hlast⟩
  | element list position =>
    obtain ⟨scope, s₀, hscope, hrest⟩ := ends_bind_ok.mp hassign
    obtain ⟨-, rfl⟩ := ends_getScope.mp hscope
    obtain ⟨element, s₁, helement, hrest⟩ := ends_bind_ok.mp (ends_check.mp hrest).2
    obtain ⟨index, s₂, hindex, _⟩ := ends_bind_ok.mp hrest
    have hread : Ends (do let _ ← elementKind env list line; exprKind env line position) s₀
        (.ok index) s₂ :=
      ends_bind_ok.mpr ⟨element, s₁, helement, hindex⟩
    simp only [visits, hread.after_eq]
    exact List.forall_mem_cons.mpr
      ⟨h, List.forall_mem_singleton.mpr ((h.list helement).expr hindex)⟩

mutual

/-- What is visited in a statement that is accepted is visited in states that arise. -/
theorem Arises.visits {owner : Owner} (howner : env.owner = some owner) (stmt : Stmt)
    (hplain : stmt.isPlain = true) {s s' : State} {found : Stmt} (h : Arises table p env s)
    (hends : Ends (inferStmt env stmt) s (.ok found) s') :
    ∀ visit ∈ visits env s stmt, Arises table p env visit.state := by
  cases stmt with
  | function | global | comment | blank | pass | stop | skip => exact List.forall_mem_nil _
  | assign line target value declared b =>
    exact h.visits_assign (Env.admits_of_isPlain howner hplain) hends
  | conditional line condition thenBody elseBody =>
    simp only [Stmt.isPlain, Bool.and_eq_true] at hplain
    simp only [inferStmt, ends_bind_ok] at hends
    obtain ⟨_, s₁, hcondition, _, s₂, henter, thenBody₁, s₃, hthen, elseBody₁, s₄, helse, _⟩ :=
      hends
    have hinner : Ends (do checkCondition env line condition; enterBlock) s (.ok ()) s₂ :=
      ends_bind_ok.mpr ⟨_, s₁, hcondition, henter⟩
    obtain ⟨_, rfl⟩ := ends_modifyFrame.mp henter
    obtain ⟨hfirst, hbetween⟩ :=
      Arises.visitsAll howner thenBody hplain.1 (h.branch hcondition) hthen
    obtain ⟨hsecond, _⟩ := Arises.visitsAll howner elseBody hplain.2 hbetween helse
    simp only [Inference.visits, hinner.after_eq, hthen.after_eq]
    exact List.forall_mem_cons.mpr ⟨h, List.forall_mem_append.mpr ⟨hfirst, hsecond⟩⟩
  | loop line var bounds b body =>
    simp only [inferStmt, ends_bind_ok] at hends
    obtain ⟨_, s₁, hbounds, binding, s₂, hbind, _, s₃, henter, _, s₄, hloop, body', s₅, hbody, _⟩ :=
      hends
    have hhead : Ends (do checkBounds env line bounds; bindLoopVar var line) s (.ok binding) s₂ :=
      ends_bind_ok.mpr ⟨_, s₁, hbounds, hbind⟩
    have hinner : Ends (do enterBlock; enterLoop var) s₂ (.ok ()) s₄ :=
      ends_bind_ok.mpr ⟨_, s₃, henter, hloop⟩
    obtain ⟨_, rfl⟩ := ends_modifyFrame.mp henter
    obtain ⟨_, rfl⟩ := ends_modifyFrame.mp hloop
    simp only [Inference.visits, hhead.after_eq, hinner.after_eq]
    refine List.forall_mem_append.mpr
      ⟨h.boundVisits hbounds, List.forall_mem_cons.mpr ⟨h.head hhead, ?_⟩⟩
    exact (Arises.visitsAll howner body hplain ((h.head hhead).loop var) hbody).1
  | expr line value => exact List.forall_mem_singleton.mpr h
  | give line value =>
    cases value with
    | none => exact List.forall_mem_nil _
    | some value => exact List.forall_mem_singleton.mpr h

/-- The same in a block, which leaves a state that arises. -/
theorem Arises.visitsAll {owner : Owner} (howner : env.owner = some owner) (stmts : List Stmt)
    (hplain : arePlain stmts = true) {s s' : State} {found : List Stmt} (h : Arises table p env s)
    (hends : Ends (inferBlock env stmts) s (.ok found) s') :
    (∀ visit ∈ visitsAll env s stmts, Arises table p env visit.state) ∧ Arises table p env s' := by
  cases stmts with
  | nil =>
    obtain ⟨_, rfl⟩ := ends_pure.mp hends
    exact ⟨List.forall_mem_nil _, h⟩
  | cons stmt stmts =>
    simp only [arePlain, Bool.and_eq_true] at hplain
    simp only [inferBlock, ends_bind_ok] at hends
    obtain ⟨stmt', s₁, hhead, stmts', s₂, htail, hpure⟩ := hends
    obtain ⟨_, rfl⟩ := ends_pure.mp hpure
    have hs₁ := h.stmt (Env.admits_of_isPlain howner hplain.1) hhead
    obtain ⟨hvisits, hlast⟩ := Arises.visitsAll howner stmts hplain.2 hs₁ htail
    simp only [Inference.visitsAll, hhead.after_eq]
    exact ⟨List.forall_mem_append.mpr ⟨Arises.visits howner stmt hplain.1 h hhead, hvisits⟩, hlast⟩

end

/-- What the assignments of a module visit is visited in states that arise. -/
theorem Arises.moduleVisits {stmts found : List Stmt} (h : Arises table p ⟨table, none⟩ s)
    (hends : Ends (inferGlobals table stmts) s (.ok found) s') :
    ∀ visit ∈ moduleVisits table s stmts, Arises table p ⟨table, none⟩ visit.state := by
  induction stmts generalizing s found with
  | nil => exact List.forall_mem_nil _
  | cons stmt stmts ih =>
    obtain ⟨stmt', found', s₁, -, hhead, htail⟩ := ends_inferGlobals_cons hends
    unfold Inference.moduleVisits
    split at hhead
    · next hassign =>
      rw [if_pos hassign, hhead.after_eq]
      have hstmt : Env.Admits ⟨table, none⟩ stmt := hassign
      refine List.forall_mem_append.mpr ⟨?_, ih (h.stmt hstmt hhead) htail⟩
      cases stmt with
      | assign => exact h.visits_assign hstmt hhead
      | _ => cases hassign
    · next hassign =>
      obtain ⟨-, rfl⟩ := hhead
      rw [if_neg hassign]
      exact ih h htail

/-- What is visited in a function that is finished is visited in states that arise. -/
theorem Begins.visits {task : Task} (hplain : arePlain task.body = true)
    (hbegins : Begins table p task s) {slots : Slots}
    (hslots : s.functions.find? task.name = some slots) {stmt : Stmt}
    (hends : Ends (inferFunction table (globals table p) task) s (.ok stmt) s') :
    ∀ visit ∈ task.visits table (globals table p) s,
      Arises table p (task.env table slots) visit.state := by
  obtain ⟨body, s₁, ⟨hopen, hbody⟩, _⟩ := ends_inferFunction_ok hslots hends
  rw [Task.visits, show s.functions.find? task.head.name = some slots from hslots]
  exact (Arises.visitsAll rfl task.body hplain (.body hbegins hslots hopen) hbody).1

end Visits

/-- What a run of inference has recorded of the functions: at its start, after the assignments of
the module, and after each attempt at a function, however it ends. -/
inductive Recorded (table : CallTable) (p : Program) : Functions → Prop
  | start : Recorded table p (start p).functions
  | module : Recorded table p (afterGlobals table p).functions
  | attempt {task s s'} {r : Except Stall Stmt} (hbegins : Begins table p task s)
      (hends : Ends (inferFunction table (globals table p) task) s r s') :
      Recorded table p s'.functions

section Runs

variable {table : CallTable} {p p' : Program} {env : Env} {s : State}

/-- The run of the assignments of the module. -/
theorem inferGlobals_start_runs (hp : p.WellFormed) (htable : table.Sound) :
    Runs (fun _ _ _ _ => False) (inferGlobals table p.statements) (start p)
      (ModuleResolved table (start p) p.statements) :=
  inferGlobals_runs htable p.statements (fun stmt hstmt => (hp.statements stmt hstmt).isModuleLevel)
    (start_proper hp) .start

theorem afterGlobals_effect (hp : p.WellFormed) (htable : table.Sound) :
    Effect (fun _ _ _ _ => False) (start p).functions (afterGlobals table p).functions :=
  (inferGlobals_start_runs hp htable).effect (ends_endOf _ _)

theorem Begins.proper_globals (hp : p.WellFormed) (htable : table.Sound) {task : Task}
    (h : Begins table p task s) :
    ∀ v ∈ globals table p, v.2.kind.isStorable = true := by
  obtain ⟨stmts, hends⟩ := h.module
  exact ((inferGlobals_start_runs hp htable).ok hends).proper.scope.locals

theorem Begins.pending (hp : p.WellFormed) (htable : table.Sound) {task : Task}
    (h : Begins table p task s) :
    ∃ rest, Pending (task :: rest) s.functions := by
  refine h.tried.pending htable (h.proper_globals hp htable) ?_
  obtain ⟨functions, hcollect⟩ := h.collected
  rcases collect_cases table [] (tasksOf p.statements) with ⟨_, herror, _⟩ | ⟨_, hnodup, _⟩
  · cases hcollect.symm.trans herror
  · exact pending_of_effect hp hnodup (afterGlobals_effect hp htable)

theorem Arises.table_eq (h : Arises table p env s) : env.table = table := by
  induction h with
  | module | body => rfl
  | expr _ _ ih | list _ _ ih | stmt _ _ _ ih | branch _ _ ih | head _ _ ih | loop _ _ ih =>
    exact ih

/-- All kinds in a state that a run comes to are of the sort that belongs in their place. -/
theorem Arises.proper (hp : p.WellFormed) (htable : table.Sound)
    (h : Arises table p env s) : s.Proper := by
  induction h with
  | module => exact start_proper hp
  | body hbegins hslots hopen =>
    obtain ⟨_, hpending⟩ := hbegins.pending hp htable
    have hparams := Slots.paramKinds_scalar (hpending.proper hslots)
    exact ⟨hpending.proper, Task.start_proper (hbegins.proper_globals hp htable) hparams⟩
  | expr h hends ih => exact exprKind_proper (h.table_eq ▸ htable) ih hends
  | list h hends ih => exact elementKind_proper ih hends
  | stmt h hstmt hends ih => exact (inferStmt_proper (h.table_eq ▸ htable) ih hstmt hends).1
  | branch h hends ih => exact (checkCondition_proper (h.table_eq ▸ htable) ih hends).enter
  | head h hends ih => exact loopHead_proper (h.table_eq ▸ htable) ih hends
  | loop _ var ih => exact ih.enterLoop var

theorem Recorded.proper (hp : p.WellFormed) (htable : table.Sound) {fs : Functions}
    (h : Recorded table p fs) :
    fs.Proper := by
  cases h with
  | start => exact (start_proper hp).functions
  | module => exact (afterGlobals_effect hp htable).proper (start_proper hp).functions
  | attempt hbegins hends =>
    obtain ⟨_, hpending⟩ := hbegins.pending hp htable
    exact (hpending.attempt htable (hbegins.proper_globals hp htable) hends).proper

/-- The slots of a resolved program are proper. -/
theorem Inferred.proper {stmts : List Stmt} {finished : List (String × Stmt)} {last : Functions}
    (hp : p.WellFormed) (htable : table.Sound) (h : Inferred table p p' stmts finished last) :
    ∀ stmt ∈ p'.statements, stmt.Proper := by
  rw [h.program]
  intro stmt hstmt
  obtain ⟨source, hsource, rfl⟩ := List.mem_map.mp hstmt
  cases hfunction : source.isFunction with
  | false =>
    obtain ⟨_, hresolves⟩ := h.resolvesModule htable hp
    rw [place_other hfunction]
    exact hresolves.proper source hsource hfunction
  | true =>
    cases source with
    | function =>
      obtain ⟨task, htask, _, s, s', _, hfinishes⟩ := h.place_function htable hp hsource
      exact inferFunction_proper htable h.module.proper.scope.locals (wellFormed_of_task hp htask).2
        hfinishes.proper hfinishes.awaits hfinishes.ends
    | _ => cases hfunction

end Runs

/-- Values are scalar wherever a run of inference on the program comes to them, and so is what is
stored beside lists of scalars. -/
structure Scalars (table : CallTable) (p : Program) : Prop where
  values : ∀ {env s line e kind s'}, Arises table p env s →
    Ends (exprKind env line e) s (.ok kind) s' →
    kind.isScalar = true
  calls : ∀ {env s callee line args kind s'}, Arises table p env s →
    Ends (callKind env callee line false args (exprKinds env line args)) s (.ok kind) s' →
    kind.isScalar = true
  items : ∀ {env s list line kind s'}, Arises table p env s →
    Ends (elementKind env list line) s (.ok kind) s' → kind.isScalar = true
  assigned : ∀ {env s line value kind s'}, Arises table p env s →
    Ends (assignedKind env line value) s (.ok kind) s' → kind.isStorable = true
  states : ∀ {env s}, Arises table p env s → s.Proper
  functions : ∀ {fs}, Recorded table p fs → fs.Proper
  stmts : ∀ {env s stmt found s'}, Arises table p env s → env.Admits stmt →
    Ends (inferStmt env stmt) s (.ok found) s' → found.Proper
  program : ∀ {p'}, (infer table p).1 = .ok p' → ∀ stmt ∈ p'.statements, stmt.Proper
  /-- The module and the functions that are finished are visited in states that arise. -/
  module : ∀ {stmts s'}, Ends (inferGlobals table p.statements) (start p) (.ok stmts) s' →
    ∀ visit ∈ moduleVisits table (start p) p.statements, Arises table p ⟨table, none⟩ visit.state
  bodies : ∀ {task s stmt s'}, Begins table p task s →
    Ends (inferFunction table (globals table p) task) s (.ok stmt) s' →
    ∀ visit ∈ task.visits table (globals table p) s, ∃ env, Arises table p env visit.state

/-- Inference of a program that comes from a text keeps values scalar, however the calls of the
runtime are extended. -/
theorem infer_scalars {table : CallTable} (htable : table.Built) {source : String} {p : Program}
    (hsource : Program.ofSource source = .ok p) : Scalars table p := by
  have hp := Program.wellFormed_of_source hsource
  have hproper : ∀ {env s}, Arises table p env s → env.table.Sound ∧ s.Proper := fun h =>
    ⟨h.table_eq ▸ htable.sound, h.proper hp htable.sound⟩
  constructor
  case values =>
    intro env s line e kind s' h hends
    obtain ⟨hsound, hs⟩ := hproper h
    have hruns : Runs _ (exprKind env line e) s _ := exprKind_runs hsound e s hs
    exact (hruns.ok hends).scalar
  case calls =>
    intro env s callee line args kind s' h hends
    obtain ⟨hsound, hs⟩ := hproper h
    have hargs : Runs _ (exprKinds env line args) s _ :=
      exprKinds_runs (fun e _ => exprKind_runs hsound e) s hs
    exact ((callKind_runs hsound hs hargs).ok hends).scalar rfl
  case items =>
    intro env s list line kind s' h hends
    obtain ⟨hsound, hs⟩ := hproper h
    exact elementKind_scalar hsound hs hends
  case assigned =>
    intro env s line value kind s' h hends
    obtain ⟨hsound, hs⟩ := hproper h
    have hruns : Runs _ (assignedKind env line value) s _ := assignedKind_runs hsound value hs
    exact (hruns.ok hends).storable
  case states => exact fun h => (hproper h).2
  case functions => exact fun h => h.proper hp htable.sound
  case stmts =>
    intro env s stmt found s' h hstmt hends
    obtain ⟨hsound, hs⟩ := hproper h
    exact (inferStmt_proper hsound hs hstmt hends).2
  case program =>
    intro p' hinfer
    rcases infer_cases htable.sound hp with ⟨_, herror, _⟩ | ⟨_, _, _, _, hok, h⟩
    · cases hinfer.symm.trans herror
    · cases hinfer.symm.trans hok
      exact h.proper hp htable.sound
  case module => exact fun hends => Arises.module.moduleVisits hends
  case bodies =>
    intro task s stmt s' hbegins hends visit hvisit
    obtain ⟨_, hpending⟩ := hbegins.pending hp htable.sound
    obtain ⟨slots, hslots, _⟩ := hpending.awaits task List.mem_cons_self
    exact ⟨_, hbegins.visits (hpending.plain task List.mem_cons_self) hslots hends visit hvisit⟩

/-- The function of the sample that calls the other one. -/
def sampleCaller : Task :=
  ⟨1, ⟨"loop", [], none, true⟩,
    [.assign 1 (.name "x") (.call "f" [.literal (.int 1)]) none .unresolved]⟩

def sampleCallee : Task := ⟨2, ⟨"f", [⟨"a", none⟩], none, false⟩, [.give 2 (some (.name "a"))]⟩

/-- The first attempt of a run on the sample stalls here: the result of the called
function is not known. -/
def stalledSample : State :=
  after (attempt (inferFunction .builtin (globals .builtin .sample) sampleCaller))
  (afterGlobals .builtin .sample)

theorem begins_sampleCallee : Begins .builtin .sample sampleCallee stalledSample where
  collected := Outcome.exists_of_isOk (by decide +kernel)
  module := by
    obtain ⟨stmts, hok⟩ : ∃ stmts,
      (endOf (inferGlobals .builtin Program.sample.statements) (start .sample)).1 =
        .ok stmts := Outcome.exists_of_isOk (by decide +kernel)
    exact ⟨stmts, Prod.ext hok rfl⟩
  tried := .now (List.mem_cons_of_mem _ List.mem_cons_self)

/-- Where the body of the called function starts. Its parameter has the kind that the
stalled call has given it. -/
def calleeState : State :=
  { stalledSample with frame := sampleCallee.start (globals .builtin .sample) [.int] }

def calleeEnv : Env := sampleCallee.env .builtin ⟨"f", 2, [("a", some .int)], none⟩

theorem arises_calleeState : Arises .builtin .sample calleeEnv calleeState :=
  .body begins_sampleCallee (by decide +kernel) rfl

/-- There the parameter is a scalar value, and the text is accepted. -/
theorem infer_scalars_sample :
    Program.ofSource Program.sampleText = .ok .sample ∧ ∃ kind s' p',
    Ends (exprKind calleeEnv 2 (.name "a")) calleeState (.ok kind) s' ∧ kind.isScalar = true ∧
    calleeState.Proper ∧ (infer .builtin .sample).1 = .ok p' ∧
      ∀ stmt ∈ p'.statements, stmt.Proper := by
  have h := infer_scalars .builtin Program.ofSource_sample
  obtain ⟨kind, hok⟩ : ∃ kind,
      (endOf (exprKind calleeEnv 2 (.name "a")) calleeState).1 = .ok kind :=
    Outcome.exists_of_isOk (by decide +kernel)
  have hends : Ends (exprKind calleeEnv 2 (.name "a")) calleeState (.ok kind) _ := Prod.ext hok rfl
  obtain ⟨p', hinfer⟩ := Program.exists_infer_sample
  exact ⟨Program.ofSource_sample, kind, _, p', hends, h.values arises_calleeState hends,
    h.states arises_calleeState, hinfer, h.program hinfer⟩

end Inference

end Sketchwright
