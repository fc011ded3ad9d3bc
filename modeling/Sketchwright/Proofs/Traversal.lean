import Sketchwright.Proofs.Attempt
import Sketchwright.Proofs.Trees

/-! What holds of all attempts at expressions and bodies. Their parts read the state, change the
frame, report, give up or call a function of the program; a property that these parts have, and that
binding keeps, every attempt at a body has, whatever the program. -/

namespace Sketchwright.Inference

/-- A property that the parts of attempts have and that binding keeps. -/
structure Inherited (P : ∀ {α : Type}, Infer α → Prop) : Prop where
  pure : ∀ {α : Type} (a : α), P (Pure.pure a : Infer α)
  fail : ∀ {α : Type} (e : Error), P (Inference.fail e : Infer α)
  get : P (MonadState.get : Infer State)
  modifyFrame : ∀ f : Frame → Frame, P (Inference.modifyFrame f)
  emit : ∀ event : Event, P (Inference.emit event)
  bind : ∀ {α β : Type} {x : Infer α} {f : α → Infer β}, P x → (∀ a, P (f a)) → P (x >>= f)
  userCall : ∀ {callee : String} {line : Nat} {asStatement : Bool} {argKinds : Infer (List Kind)},
    P argKinds → P (Inference.userCall callee line asStatement argKinds)

namespace Inherited

variable {P : ∀ {α : Type}, Infer α → Prop} (h : Inherited P) {α β : Type} {env : Env} {line : Nat}
  {name callee : String} {asStatement : Bool} {declared : Option Kind} {kind : Kind}

theorem of_ite {c : Prop} [Decidable c] {x y : Infer α} (hx : P x) (hy : P y) :
    P (if c then x else y) := by
  split
  · exact hx
  · exact hy

include h

theorem getScope : P Inference.getScope :=
  h.bind h.get fun s => h.pure s.frame.scope

theorem modifyScope (f : Scope → Scope) : P (Inference.modifyScope f) :=
  h.modifyFrame fun frame => { frame with scope := f frame.scope }

/-- A check that fails, or lets the rest go on. -/
theorem check {c : Prop} [Decidable c] {e : Error} {f : α → Infer β} {y : Infer β}
    (hf : ∀ a, P (f a)) (hy : P y) :
    P (if c then Inference.fail e >>= f else y) :=
  of_ite (h.bind (h.fail e) hf) hy

theorem require {c : Prop} [Decidable c] {e : Error} :
    P (if c then Inference.fail e else Pure.pure ()) :=
  of_ite (h.fail e) (h.pure ())

theorem resolve : P (resolve env name line) := by
  unfold Inference.resolve
  refine h.bind h.getScope fun scope => ?_
  split
  · exact h.pure _
  · exact h.bind (h.modifyScope _) fun _ => h.pure _
  · exact h.fail _
  · split
    · exact h.pure _
    · exact h.bind h.get fun _ => of_ite (h.fail _) (h.fail _)

theorem elementKind : P (elementKind env name line) := by
  unfold Inference.elementKind
  refine h.bind h.resolve fun kind => ?_
  split
  · exact h.pure _
  · exact h.fail _

theorem unknownCall {argKinds : Infer (List Kind)} (hargs : P argKinds) :
    P (unknownCall callee line asStatement argKinds) := by
  unfold Inference.unknownCall
  have hrest : P (if asStatement then do Inference.emit (.unknownCall callee line); return .void
      else unsupported line (.unknownCallValue callee) : Infer Kind) :=
    of_ite (h.bind (h.emit _) fun _ => h.pure _) (h.fail _)
  exact h.bind hargs fun _ => h.bind h.getScope fun scope => h.check (fun _ => hrest) hrest

theorem ruleArguments {rule : CallRule} {args : List Expr} {argKinds : Infer (List Kind)}
    (hargs : P argKinds) :
    P (ruleArguments env rule line args argKinds) := by
  unfold Inference.ruleArguments
  split
  · exact h.fail _
  · split
    · exact h.pure _
    · exact h.bind h.elementKind fun _ => h.pure _
    · exact h.bind hargs fun _ => h.fail _
  · exact hargs

theorem checkArity {count : Nat} (arity : Option Nat) : P (checkArity callee line count arity) := by
  cases arity with
  | none => exact h.pure _
  | some arity => exact h.require

theorem ruleResult {rule : CallRule} {kinds : List Kind} :
    P (ruleResult rule callee line asStatement kinds) := by
  unfold Inference.ruleResult
  split
  · exact of_ite (h.pure _) (h.fail _)
  · exact h.pure _
  · split
    · exact h.pure _
    · exact h.fail _

theorem runtimeCall {rule : CallRule} {args : List Expr} {argKinds : Infer (List Kind)}
    (hargs : P argKinds) :
    P (runtimeCall env rule callee line asStatement args argKinds) := by
  unfold Inference.runtimeCall
  refine h.bind (h.checkArity rule.arity) fun _ => h.bind (h.ruleArguments hargs) fun kinds => ?_
  exact h.check (fun _ => h.ruleResult) h.ruleResult

theorem callKind {args : List Expr} {argKinds : Infer (List Kind)} (hargs : P argKinds) :
    P (callKind env callee line asStatement args argKinds) := by
  unfold Inference.callKind
  refine h.bind h.get fun s => of_ite ?_ ?_
  · exact h.bind h.getScope fun scope => h.check (fun _ => h.userCall hargs) (h.userCall hargs)
  · split
    · exact h.unknownCall hargs
    · exact h.runtimeCall hargs

theorem exprKinds {es : List Expr} (hes : ∀ e ∈ es, P (exprKind env line e)) :
    P (exprKinds env line es) := by
  induction es with
  | nil => exact h.pure _
  | cons e es ih =>
    obtain ⟨he, hes⟩ := List.forall_mem_cons.mp hes
    exact h.bind he fun _ => h.bind (ih hes) fun _ => h.pure _

theorem exprKind (e : Expr) : P (exprKind env line e) := by
  induction e with
  | literal value => exact h.pure _
  | name id =>
    unfold Inference.exprKind
    exact h.bind h.resolve fun _ => h.check (fun _ => h.pure _) (h.pure _)
  | unary sign operand ih =>
    unfold Inference.exprKind
    exact h.bind ih fun _ => h.check (fun _ => h.pure _) (h.pure _)
  | binary left op right ihl ihr =>
    unfold Inference.exprKind
    refine h.bind ihl fun a => h.bind ihr fun b => ?_
    split
    · exact h.pure _
    · exact h.fail _
  | call callee args ih =>
    unfold Inference.exprKind
    exact h.callKind (h.exprKinds ih)
  | index list position ih =>
    unfold Inference.exprKind
    exact h.bind h.elementKind fun _ => h.bind ih fun _ => h.check (fun _ => h.pure _) (h.pure _)
  | list items => exact h.fail _

theorem itemsKind (items : List Expr) (first : Option Kind) :
    P (itemsKind env line first items) := by
  induction items generalizing first with
  | nil =>
    cases first with
    | none => exact h.fail _
    | some kind => exact h.pure _
  | cons item items ih =>
    cases first with
    | none =>
      have hrest : P (do
          let kind ← Inference.exprKind env line item
          Inference.itemsKind env line (some kind) items : Infer Kind) :=
        h.bind (h.exprKind item) fun kind => ih (some kind)
      exact h.check (fun _ => hrest) hrest
    | some expected =>
      have hrest : P (do
          let kind ← Inference.exprKind env line item
          if kind ≠ expected then unsupported line (.mixedList expected kind)
          Inference.itemsKind env line (some expected) items : Infer Kind) :=
        h.bind (h.exprKind item) fun _ => h.check (fun _ => ih _) (ih _)
      exact h.check (fun _ => hrest) hrest

theorem assignedKind (value : Expr) : P (assignedKind env line value) := by
  unfold Inference.assignedKind
  split
  · next items =>
    have hrest :
        P (do return .list (← Inference.itemsKind env line none items) items.length : Infer Kind) :=
      h.bind (h.itemsKind items none) fun _ => h.pure _
    exact h.bind h.get fun s => h.check (fun _ => hrest) hrest
  · exact h.exprKind value

theorem checkLoopVar : P (checkLoopVar name line) :=
  h.bind h.get fun _ => h.require

theorem checkRedeclared {existing : Kind} : P (checkRedeclared name existing line declared) := by
  cases declared with
  | none => exact h.pure _
  | some kind => exact h.require

theorem reassign {existing : Kind} : P (reassign name existing kind declared line) := by
  unfold Inference.reassign
  refine h.check (fun _ => ?_) ?_
  all_goals exact h.bind h.checkRedeclared fun _ => h.check (fun _ => h.pure _) (h.pure _)

theorem checkDeclared : P (checkDeclared name kind line declared) := by
  cases declared with
  | none => exact h.pure _
  | some expected => exact h.require

theorem declare : P (declare name kind declared line) := by
  unfold Inference.declare
  refine h.bind h.checkDeclared fun _ => h.bind (h.modifyScope _) fun _ => ?_
  refine h.bind h.get fun s => of_ite (h.pure _) ?_
  exact h.bind (h.modifyFrame _) fun _ => h.pure _

theorem boundKind {reason : Unbound} : P (boundKind name line reason) := by
  unfold Inference.boundKind
  refine h.bind h.getScope fun scope => ?_
  split
  · exact h.pure _
  · exact of_ite (h.pure _) (of_ite (h.fail _) (h.pure _))
  · exact of_ite (h.fail _) (h.pure _)
  · exact h.pure _

theorem checkAssignable : P (checkAssignable env name line) := by
  unfold Inference.checkAssignable
  refine h.bind h.getScope fun scope => h.bind h.get fun s => ?_
  refine h.check (fun _ => ?_) ?_
  all_goals exact h.check (fun _ => h.checkLoopVar) h.checkLoopVar

theorem assignName (value : Expr) : P (assignName env name value declared line) := by
  unfold Inference.assignName
  refine h.bind h.checkAssignable fun _ => h.bind (h.assignedKind value) fun kind => ?_
  refine h.bind h.boundKind fun existing => ?_
  cases existing with
  | none => exact h.declare
  | some existing => exact h.bind h.getScope fun scope => of_ite (h.fail _) h.reassign

theorem assignElement (list : String) (position value : Expr) :
    P (assignElement env list position value line) := by
  unfold Inference.assignElement
  have hvalue : ∀ element, P (do
      let kind ← Inference.exprKind env line value
      if !element.accepts kind then mismatch line (.elements list) (.kind element) (.kind kind)
      return .reassign : Infer Binding) :=
    fun element => h.bind (h.exprKind value) fun _ => h.check (fun _ => h.pure _) (h.pure _)
  refine h.bind h.getScope fun scope => h.check (fun _ => ?_) ?_
  all_goals
    refine h.bind h.elementKind fun element => h.bind (h.exprKind position) fun index => ?_
    exact h.check (fun _ => hvalue element) (hvalue element)

theorem assignTarget (target : Target) (value : Expr) :
    P (assignTarget env target value declared line) := by
  cases target with
  | name id => exact h.assignName value
  | element list position => exact h.assignElement list position value

theorem checkBound (bound : Expr) : P (checkBound env line bound) :=
  h.bind (h.exprKind bound) fun _ => h.require

theorem checkBounds (bounds : Bounds) : P (checkBounds env line bounds) := by
  unfold Inference.checkBounds
  cases bounds.start with
  | none => exact h.checkBound bounds.stop
  | some start => exact h.bind (h.checkBound start) fun _ => h.checkBound bounds.stop

theorem bindLoopVar {var : String} : P (bindLoopVar var line) := by
  unfold Inference.bindLoopVar
  refine h.bind h.checkLoopVar fun _ => h.bind h.boundKind fun existing => ?_
  cases existing with
  | none => exact h.bind (h.modifyScope _) fun _ => h.pure _
  | some kind => exact h.check (fun _ => h.pure _) (h.pure _)

theorem releaseLoopVar {var : String} {binding : Binding} : P (releaseLoopVar var binding) := by
  unfold Inference.releaseLoopVar
  split
  · exact h.modifyScope _
  · exact h.pure _

theorem checkCondition (condition : Expr) : P (checkCondition env line condition) :=
  h.bind (h.exprKind condition) fun _ => h.require

theorem checkStatement (value : Expr) : P (checkStatement env line value) := by
  cases value with
  | call callee args =>
    exact h.bind (h.callKind (h.exprKinds fun e _ => h.exprKind e)) fun _ => h.pure _
  | _ => exact h.bind (h.exprKind _) fun _ => h.pure _

theorem checkReturned {owner : Owner} : P (checkReturned owner kind line) := by
  unfold Inference.checkReturned
  split
  · exact h.require
  · refine h.bind h.get fun s => ?_
    split
    · exact h.require
    · exact h.modifyFrame _

theorem inferReturn (value : Option Expr) : P (inferReturn env value line) := by
  have hgiven : P (givenKind env line value) := by
    cases value with
    | none => exact h.pure _
    | some value => exact h.exprKind value
  unfold Inference.inferReturn
  refine h.bind hgiven fun kind => ?_
  split
  · exact h.fail _
  · exact h.check (fun _ => h.checkReturned) h.checkReturned

theorem shareGlobal : P (shareGlobal name line) := by
  unfold Inference.shareGlobal
  refine h.bind h.getScope fun scope => h.check (fun _ => ?_) ?_
  all_goals
    split
    · exact h.modifyScope _
    · exact h.fail _
    · exact h.fail _
    · exact h.fail _

theorem shareGlobals (names : List String) : P (shareGlobals line names) := by
  induction names with
  | nil => exact h.pure _
  | cons name names ih => exact h.bind h.shareGlobal fun _ => ih

mutual

/-- Attempts at statements have the property. -/
theorem inferStmt : ∀ stmt, P (inferStmt env stmt)
  | .assign line target value declared _ => h.bind (h.assignTarget target value) fun _ => h.pure _
  | .conditional line condition thenBody elseBody => by
    unfold Inference.inferStmt
    refine h.bind (h.checkCondition condition) fun _ => h.bind (h.modifyFrame _) fun _ => ?_
    refine h.bind (inferBlock thenBody) fun _ => h.bind (inferBlock elseBody) fun _ => ?_
    exact h.bind (h.modifyFrame _) fun _ => h.pure _
  | .loop line var bounds _ body => by
    unfold Inference.inferStmt
    refine h.bind (h.checkBounds bounds) fun _ => h.bind h.bindLoopVar fun binding => ?_
    refine h.bind (h.modifyFrame _) fun _ => h.bind (h.modifyFrame _) fun _ => ?_
    refine h.bind (inferBlock body) fun _ => h.bind (h.modifyFrame _) fun _ => ?_
    exact h.bind (h.modifyFrame _) fun _ => h.bind h.releaseLoopVar fun _ => h.pure _
  | .expr line value => h.bind (h.checkStatement value) fun _ => h.pure _
  | .give line value => h.bind (h.inferReturn value) fun _ => h.pure _
  | .global line names => h.bind (h.shareGlobals names) fun _ => h.pure _
  | .function .. => h.fail _
  | .comment .. | .blank _ | .pass _ | .stop _ | .skip _ => h.pure _

theorem inferBlock : ∀ stmts, P (inferBlock env stmts)
  | [] => h.pure _
  | stmt :: stmts => h.bind (inferStmt stmt) fun _ => h.bind (inferBlock stmts) fun _ => h.pure _

end

/-- The assignments of the module are attempts as well. -/
theorem inferGlobals {table : CallTable} (stmts : List Stmt) : P (inferGlobals table stmts) := by
  induction stmts with
  | nil => exact h.pure _
  | cons stmt stmts ih =>
    unfold Inference.inferGlobals
    have hrest : ∀ stmt, P
        (do return stmt :: (← Inference.inferGlobals table stmts) : Infer (List Stmt)) :=
      fun stmt => h.bind ih fun _ => h.pure _
    split
    · exact h.bind (h.inferStmt _) hrest
    · exact h.bind (h.pure _) hrest

end Inherited

end Sketchwright.Inference
