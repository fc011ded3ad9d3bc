import Sketchwright.Proofs.Definitions
import Sketchwright.Proofs.Shape

/-! The assignments of a module. Each of them declares a new global with the kind of its value, and
none of them calls a function of the program. -/

namespace Sketchwright

namespace Inference

/-- The global that a statement of a module declares. -/
def global? : Stmt → Option (String × Variable)
  | .assign line (.name id) _ _ (.declare kind) => some (id, ⟨kind, line⟩)
  | _ => none

def globalsOf (stmts : List Stmt) : Variables := stmts.filterMap global?

theorem global?_of_not_assign {stmt : Stmt} (h : stmt.isAssign = false) : global? stmt = none := by
  cases stmt <;> first | rfl | cases h

/-- The frame of a module. -/
structure Frame.OfModule (table : CallTable) (fr : Frame) : Prop where
  wf : fr.Wf table
  globals : fr.scope.globals = none
  depth : fr.depth = 0
  hoisted : fr.hoisted = []
  returned : fr.returned = none

/-- The assignments of a module declare its globals, one after the other; its
other statements stay. -/
inductive ResolvesModule (c : Callees) :
    Frame → List Stmt → List Stmt → Frame → List Reading → Prop
  | nil {fr} : ResolvesModule c fr [] [] fr []
  | assign {fr line name value declared b kind stmts stmts' fr' head readings}
      (hhead : Resolves c none fr (.assign line (.name name) value declared b)
        (.assign line (.name name) value declared (.declare kind))
        ((fr.read value).declare name kind line) head)
      (htail : ResolvesModule c
        ((fr.read value).declare name kind line) stmts stmts' fr' readings) :
      ResolvesModule c fr (.assign line (.name name) value declared b :: stmts)
        (.assign line (.name name) value declared (.declare kind) :: stmts') fr' (head ++ readings)
  | other {fr stmt stmts stmts' fr' readings} (hassign : stmt.isAssign = false)
      (hlevel : stmt.isModuleLevel = true)
      (htail : ResolvesModule c fr stmts stmts' fr' readings) :
      ResolvesModule c fr (stmt :: stmts) (stmt :: stmts') fr' readings

section Module

variable {table : CallTable} {c : Callees} {fr fr' : Frame}

theorem Frame.OfModule.isModule (h : fr.OfModule table) : fr.scope.isModule = true := by
  simp [Scope.isModule, h.globals]

theorem Frame.OfModule.start : (Frame.ofScope .module).OfModule table :=
  ⟨⟨fun _ h => (nomatch h), fun _ h => (nomatch h), fun _ h => (nomatch h), fun _ h => (nomatch h),
    List.nodup_nil⟩, rfl, rfl, rfl, rfl⟩

theorem Frame.OfModule.next (h : fr.OfModule c.table) {stmt stmt' : Stmt} {name : String}
    {value : Expr} {kind : Kind} {line : Nat} {readings : List Reading}
    (hhead : Resolves c none fr stmt stmt' ((fr.read value).declare name kind line) readings) :
    ((fr.read value).declare name kind line).OfModule c.table := by
  obtain ⟨hwf, hextends⟩ := hhead.extends stmt h.wf
  exact ⟨hwf, hextends.globals.trans h.globals, hextends.depth.trans h.depth, h.hoisted, h.returned⟩

/-- In a module a name that is assigned is a new global. -/
theorem Resolves.of_module (h : fr.OfModule c.table) {line : Nat} {name : String} {value : Expr}
    {declared : Option Kind} {b binding : Binding} {readings : List Reading}
    (hhead : Resolves c none fr (.assign line (.name name) value declared b)
      (.assign line (.name name) value declared binding) fr' readings) :
    ∃ kind, binding = .declare kind ∧ fr' = (fr.read value).declare name kind line := by
  cases hhead with
  | again _ _ hbody =>
    rw [h.isModule] at hbody
    cases hbody
  | first => exact ⟨_, rfl, rfl⟩
  | hoist _ _ _ _ hdepth => exact absurd h.depth hdepth
  | inert hstmt => cases hstmt

theorem assignElement_module {reason : Reason} {env : Env} {list : String} {position value : Expr}
    {line : Nat} {s : State} (h : s.frame.scope.isModule = true) :
    Runs reason (assignElement env list position value line) s fun _ _ => False := by
  unfold assignElement
  exact .getScope_bind (.check .unsupported fun hnot => absurd h hnot)

/-- A module has been resolved from `s` on. -/
structure ModuleResolved (table : CallTable) (s : State) (stmts stmts' : List Stmt) (s' : State) :
    Prop where
  proper : s'.frame.Proper
  module : s'.frame.OfModule table
  rules : ∀ {signatures}, s'.functions.Fits signatures → ∃ readings,
    ResolvesModule ⟨table, signatures⟩ s.frame stmts stmts' s'.frame readings

/-- One assignment of a module. -/
theorem inferGlobal_runs (htable : table.Sound) {s : State} (hs : s.Proper)
    (hmodule : s.frame.OfModule table) (line : Nat) (target : Target) (value : Expr)
    (declared : Option Kind) (b : Binding) :
    Runs (fun _ _ _ _ => False) (inferStmt ⟨table, none⟩ (.assign line target value declared b)) s
      fun stmt' s' => ∃ name kind, target = .name name ∧
        stmt' = .assign line (.name name) value declared (.declare kind) ∧
        s'.frame = (s.frame.read value).declare name kind line ∧ s'.frame.Proper ∧
        s'.frame.OfModule table ∧
        ∀ {signatures}, s'.functions.Fits signatures → ∃ readings, Resolves ⟨table, signatures⟩ none
          s.frame (.assign line (.name name) value declared b) stmt' s'.frame readings := by
  unfold inferStmt
  cases target with
  | element list position =>
    exact .bind (assignElement_module hmodule.isModule) fun _ _ _ hfalse => hfalse.elim
  | name id =>
    have hruns : Runs (fun _ _ _ _ => False) (assignName ⟨table, none⟩ id value declared line) s
        fun binding s' => Resolved ⟨table, none⟩ none s (.assign line (.name id) value declared b)
          (.assign line (.name id) value declared binding) s' :=
      (assignName_runs htable hs).because fun {_} _ {_ _ _} h => by
        rw [FromCall, hmodule.isModule] at h
        cases h.1
    refine .bind hruns fun binding s' _ h => .pure ?_
    obtain ⟨signatures, hfits⟩ := s'.functions.exists_fits
    obtain ⟨readings, hresolves⟩ := h.rules hfits
    obtain ⟨kind, rfl, hframe⟩ := hresolves.of_module hmodule
    refine ⟨id, kind, rfl, rfl, hframe, h.proper, ?_, h.rules⟩
    rw [hframe] at hresolves ⊢
    exact hmodule.next (c := ⟨table, signatures⟩) hresolves

theorem inferGlobals_runs (htable : table.Sound) (stmts : List Stmt)
    (hlevel : ∀ stmt ∈ stmts, stmt.isModuleLevel = true) {s : State} (hs : s.Proper)
    (hmodule : s.frame.OfModule table) :
    Runs (fun _ _ _ _ => False) (inferGlobals table stmts) s (ModuleResolved table s stmts) := by
  induction stmts generalizing s with
  | nil => exact .pure ⟨hs.frame, hmodule, fun _ => ⟨_, .nil⟩⟩
  | cons stmt stmts ih =>
    obtain ⟨hhead, htail⟩ := List.forall_mem_cons.mp hlevel
    have hother : ∀ other : Stmt, other.isAssign = false → other.isModuleLevel = true →
        Runs (fun _ _ _ _ => False) (do
          let stmt ← (pure other : Infer Stmt)
          return stmt :: (← inferGlobals table stmts)) s
          (ModuleResolved table s (other :: stmts)) := by
      intro other hassign hlevel
      refine .bind (.pure (Q := fun stmt s₁ => stmt = other ∧ s₁ = s) ⟨rfl, rfl⟩) ?_
      rintro _ _ _ ⟨rfl, rfl⟩
      refine .bind (ih htail hs hmodule) fun stmts' s' _ h => .pure ?_
      exact ⟨h.proper, h.module, fun hfits => (h.rules hfits).imp fun _ => .other hassign hlevel⟩
    unfold inferGlobals
    cases stmt with
    | assign line target value declared b =>
      refine .bind (inferGlobal_runs htable hs hmodule line target value declared b) ?_
      rintro _ s₁ heffect ⟨name, kind, rfl, rfl, hframe, hproper, hmodule₁, hrules⟩
      refine .bind (ih htail ⟨heffect.proper hs.functions, hproper⟩ hmodule₁)
        fun stmts' s' heffect' h => .pure ⟨h.proper, h.module, fun {_} hfits => ?_⟩
      obtain ⟨_, hhead⟩ := hrules (hfits.of_grows heffect'.grows)
      obtain ⟨_, htail⟩ := h.rules hfits
      rw [hframe] at hhead htail
      exact ⟨_, .assign hhead htail⟩
    | function | comment | blank | pass => exact hother _ rfl rfl
    | conditional | loop | expr | give | global | stop | skip => cases hhead

theorem Scope.locals_readAll (s : Scope) (names : List String) :
    (s.readAll names).locals = s.locals :=
  Scope.readAll_preserves (P := fun t => t.locals = s.locals) id rfl names

/-- The variables of a module are the globals that its statements declare, the latest first. -/
theorem ResolvesModule.locals {stmts stmts' : List Stmt} {readings : List Reading}
    (h : ResolvesModule c fr stmts stmts' fr' readings) :
    fr'.scope.locals = (globalsOf stmts').reverse ++ fr.scope.locals := by
  induction h with
  | nil => rfl
  | @assign fr line name value _ _ kind _ _ _ _ _ _ _ ih =>
    have hlocals : ((fr.read value).declare name kind line).scope.locals =
        (name, ⟨kind, line⟩) :: fr.scope.locals :=
      congrArg _ (Scope.locals_readAll fr.scope value.vars)
    rw [ih, hlocals]
    simp [globalsOf, global?]
  | other hassign _ _ ih => simpa [globalsOf, global?_of_not_assign hassign] using ih

/-- No two statements of a module declare the same global. -/
theorem ResolvesModule.distinct {stmts stmts' : List Stmt} {readings : List Reading}
    (h : ResolvesModule c fr stmts stmts' fr' readings) (hmodule : fr.OfModule c.table)
    {names : List String} (hown : ∀ x ∈ names, ∃ kind, fr.scope.meaning x = .own kind)
    (hnodup : names.Nodup) : (names ++ (globalsOf stmts').map Prod.fst).Nodup := by
  induction h generalizing names with
  | nil => simpa [globalsOf] using hnodup
  | @assign fr line name value declared b kind _ _ _ _ _ hhead htail ih =>
    obtain ⟨_, hnew, hbound⟩ := hhead.declared hmodule.wf rfl
    obtain ⟨_, hextends⟩ := hhead.extends _ hmodule.wf
    have hown' : ∀ x ∈ names ++ [name], ∃ k,
        ((fr.read value).declare name kind line).scope.meaning x = .own k :=
      List.forall_mem_append.mpr ⟨fun x hx => (hown x hx).imp fun _ => hextends.own,
        fun x hx => ⟨kind, List.mem_singleton.mp hx ▸ hbound⟩⟩
    have hfresh : (names ++ [name]).Nodup := by
      refine List.nodup_append.mpr ⟨hnodup, by simp, fun x hx y hy hxy => ?_⟩
      obtain ⟨k, hk⟩ := hown x hx
      rw [hxy, List.mem_singleton.mp hy] at hk
      exact hnew k hk
    simpa [globalsOf, global?] using ih (hmodule.next hhead) hown' hfresh
  | other hassign _ _ ih =>
    simpa [globalsOf, global?_of_not_assign hassign] using ih hmodule hown hnodup

/-- A module hoists nothing and gives nothing back. -/
def moduleResult : Result := ⟨false, .void⟩

theorem Frame.OfModule.ahead (h : fr.OfModule table) : Ahead table none [] moduleResult fr where
  hoisted := by simp [h.hoisted]
  nodup := List.nodup_nil
  unseen := fun _ _ => rfl
  unshared := fun _ _ => rfl
  unknown := fun _ _ h => nomatch h
  annotated := rfl
  known := fun _ h => nomatch h
  returned := by simp [h.returned]

/-- A statement of a module other than an assignment reads nothing and declares nothing. -/
theorem occurrences_of_other {stmt : Stmt} (hassign : stmt.isAssign = false)
    (hlevel : stmt.isModuleLevel = true) (context : Context) :
    stmt.occurrences context = [⟨context, stmt⟩] ∧ context.after stmt = context ∧
      (⟨context, stmt⟩ : Occurrence).sites = [] ∧
      (stmt.isFunction = false → stmt.isInert = true) := by
  cases stmt with
  | function => exact ⟨rfl, rfl, rfl, fun h => nomatch h⟩
  | comment | blank | pass => exact ⟨rfl, rfl, rfl, fun _ => rfl⟩
  | assign => cases hassign
  | conditional | loop | expr | give | global | stop | skip => cases hlevel

/-- The inferencer and the sketch read the assignments of a module alike. -/
theorem ResolvesModule.simulated {stmts stmts' : List Stmt} {readings : List Reading}
    {context : Context} (h : ResolvesModule c fr stmts stmts' fr' readings)
    (hmodule : fr.OfModule c.table) (hagrees : Agrees [] fr context) :
    List.Forall₂ (Matches c.table) readings
        ((occurrencesIn context stmts').flatMap Occurrence.sites) ∧
      ∀ o ∈ occurrencesIn context stmts', o.stmt.isFunction = false →
        o.stmt.Typed c moduleResult o.context := by
  induction h generalizing context with
  | nil => exact ⟨.nil, fun _ h => nomatch h⟩
  | assign hhead _ ih =>
    have hmodule₁ := hmodule.next hhead
    have hfirst := hhead.simulated _ hmodule.wf hmodule₁.ahead hagrees
    obtain ⟨hsites, htyped⟩ := ih hmodule₁ hfirst.agrees
    refine ⟨forall₂_flatMap_append hfirst.sites hsites, fun o ho => ?_⟩
    rcases List.mem_append.mp ho with ho | ho
    · exact fun _ => hfirst.typed o ho
    · exact htyped o ho
  | @other _ stmt _ _ _ _ hassign hlevel _ ih =>
    obtain ⟨hoccurrences, hafter, hsites, hinert⟩ := occurrences_of_other hassign hlevel context
    obtain ⟨hrest, htyped⟩ := ih hmodule hagrees
    rw [occurrencesIn, hoccurrences, hafter]
    refine ⟨?_, List.forall_mem_cons.mpr ⟨fun h => .inert (hinert h), htyped⟩⟩
    rw [List.cons_append, List.flatMap_cons, hsites]
    exact hrest

end Module

/-- The statements of a module keep their lines. -/
theorem ResolvesModule.lines {stmts stmts' : List Stmt} {c : Callees} {fr fr' : Frame}
    {readings : List Reading} (h : ResolvesModule c fr stmts stmts' fr' readings) :
    (stmts'.filter (!·.isTrivia)).map Stmt.line = (stmts.filter (!·.isTrivia)).map Stmt.line := by
  induction h with
  | nil => rfl
  | assign _ _ ih => exact congrArg (List.cons _) ih
  | @other _ stmt _ _ _ _ _ _ _ ih =>
    cases htrivia : stmt.isTrivia <;> simpa [htrivia] using ih

section Positions

theorem lookup_map {α β : Type} (f : α → β) (entries : List (String × α)) (x : String) :
    (entries.map fun v => (v.1, f v.2)).lookup x = (entries.lookup x).map f := by
  induction entries with
  | nil => rfl
  | cons entry entries ih =>
    obtain ⟨y, v⟩ := entry
    simp only [List.map_cons, List.lookup_cons, ih]
    split <;> rfl

theorem declared?_eq (stmt : Stmt) :
    stmt.declared? = (global? stmt).map fun v => (v.1, v.2.kind) := by
  cases stmt with
  | assign line target value declared binding => cases target <;> cases binding <;> rfl
  | _ => rfl

theorem line_of_global? {stmt : Stmt} {x : String} {v : Variable} (h : global? stmt = some (x, v)) :
    v.line = stmt.line ∧ stmt.isTrivia = false := by
  unfold global? at h
  split at h
  · cases h
    exact ⟨rfl, rfl⟩
  · cases h

theorem after_eq (context : Context) (stmt : Stmt) :
    context.after stmt = stmt.declared?.toList ++ context := by
  unfold Context.after Stmt.declared?
  split <;> rfl

/-- The declarations after the statements of a module are its globals so far. -/
theorem afterAll_eq (context : Context) (stmts : List Stmt) : context.afterAll stmts =
    ((globalsOf stmts).map fun v => (v.1, v.2.kind)).reverse ++ context := by
  induction stmts generalizing context with
  | nil => rfl
  | cons stmt stmts ih =>
    rw [Context.afterAll, List.foldl_cons]
    refine (ih _).trans ?_
    rw [after_eq, declared?_eq]
    cases hglobal : global? stmt <;> simp [globalsOf, hglobal]

theorem occurrences_of_moduleLevel {stmt : Stmt} (h : stmt.isModuleLevel = true)
    (context : Context) : stmt.occurrences context = [⟨context, stmt⟩] := by
  cases stmt with
  | conditional | loop => cases h
  | _ => rfl

/-- A statement of a module stands between the statements before it and those after it. -/
theorem mem_occurrencesIn {stmts : List Stmt} {o : Occurrence} {context : Context}
    (hlevel : ∀ stmt ∈ stmts, stmt.isModuleLevel = true) (ho : o ∈ occurrencesIn context stmts) :
    ∃ before after, stmts = before ++ o.stmt :: after ∧ o.context = context.afterAll before := by
  induction stmts generalizing context with
  | nil => cases ho
  | cons stmt stmts ih =>
    obtain ⟨hhead, htail⟩ := List.forall_mem_cons.mp hlevel
    rcases List.mem_append.mp ho with ho | ho
    · rw [occurrences_of_moduleLevel hhead, List.mem_singleton] at ho
      exact ⟨[], stmts, by rw [ho]; rfl, by rw [ho]; rfl⟩
    · obtain ⟨before, after, rfl, hcontext⟩ := ih htail ho
      exact ⟨stmt :: before, after, rfl, hcontext⟩

/-- The globals that are declared before a place are those that are assigned above it. -/
theorem precedes_of_split {before after : List Stmt} {stmt : Stmt}
    (hnodup : ((globalsOf (before ++ stmt :: after)).map Prod.fst).Nodup)
    (hstmt : stmt.isFunction = true)
    (hlines : ∀ other ∈ after, other.isTrivia = false → stmt.line ≤ other.line) :
    Precedes (globalsOf (before ++ stmt :: after)).reverse stmt.line
      (Context.afterAll [] before) := by
  have hsplit : globalsOf (before ++ stmt :: after) = globalsOf before ++ globalsOf after := by
    have hnone : global? stmt = none := by
      cases stmt <;> first | rfl | cases hstmt
    simp [globalsOf, hnone]
  have hbefore : ((globalsOf before).map Prod.fst).Nodup := by
    rw [hsplit, List.map_append] at hnodup
    exact (List.nodup_append.mp hnodup).1
  have hcontext : ∀ x, (Context.afterAll [] before).lookup x =
      ((globalsOf before).lookup x).map Variable.kind := by
    intro x
    rw [afterAll_eq, List.append_nil, lookup_reverse (by simpa [Function.comp_def] using hbefore)]
    exact lookup_map Variable.kind _ x
  have hglobals : ∀ x, (globalsOf (before ++ stmt :: after)).reverse.lookup x =
      ((globalsOf before).lookup x).or ((globalsOf after).lookup x) := by
    intro x
    rw [lookup_reverse hnodup, hsplit, List.lookup_append]
  constructor
  · intro x v hv hline
    rw [hglobals] at hv
    rw [hcontext]
    cases hfound : (globalsOf before).lookup x with
    | some w =>
      rw [hfound] at hv
      cases hv
      rfl
    | none =>
      rw [hfound, Option.none_or] at hv
      obtain ⟨_, _, heq, _⟩ := List.lookup_eq_some_iff.mp hv
      have hmem : (x, v) ∈ globalsOf after := heq ▸ by simp
      obtain ⟨other, hother, hglobal⟩ := List.mem_filterMap.mp hmem
      obtain ⟨hline', htrivia⟩ := line_of_global? hglobal
      have := hlines other hother htrivia
      omega
  · intro x hx
    rw [hglobals] at hx
    rw [hcontext, (Option.or_eq_none_iff.mp hx).1]
    rfl

end Positions

end Inference

end Sketchwright
