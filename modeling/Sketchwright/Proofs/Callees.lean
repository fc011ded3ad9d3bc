import Sketchwright.Proofs.Steadiness

/-! The callees whose results a body needs: those of all calls in it but the calls that
are statements of their own. The inferencer uses no other results, and it needs each of
these to come to an end. -/

namespace Sketchwright

namespace Expr

/-- The callees of the calls in an expression. -/
def callees (e : Expr) : List String := e.calls.map Prod.fst

def calleesAll (es : List Expr) : List String := (callsAll es).map Prod.fst

theorem callees_binary (left : Expr) (op : BinOp) (right : Expr) :
    (binary left op right).callees = left.callees ++ right.callees :=
  List.map_append

theorem calleesAll_cons (e : Expr) (es : List Expr) :
    calleesAll (e :: es) = e.callees ++ calleesAll es :=
  List.map_append

end Expr

def Target.callees : Target → List String
  | .name _ => []
  | .element _ position => position.callees

def Bounds.callees (bounds : Bounds) : List String :=
  (bounds.start.elim [] Expr.callees) ++ bounds.stop.callees

namespace Stmt

mutual

/-- The callees of the calls in a statement whose values are used. -/
def needed : Stmt → List String
  | .function _ _ _ _ body => neededIn body
  | .assign _ target value _ _ => target.callees ++ value.callees
  | .conditional _ condition thenBody elseBody =>
    condition.callees ++ (neededIn thenBody ++ neededIn elseBody)
  | .loop _ _ bounds _ body => bounds.callees ++ neededIn body
  | .expr _ (.call _ args) => Expr.calleesAll args
  | .expr _ value => value.callees
  | .give _ value => value.elim [] Expr.callees
  | .global .. | .comment .. | .blank _ | .pass _ | .stop _ | .skip _ => []

def neededIn : List Stmt → List String
  | [] => []
  | stmt :: stmts => stmt.needed ++ neededIn stmts

end

end Stmt

namespace Inference

variable {inModule : Bool}

section Names

variable (env : Env) (name : String) (line : Nat)

theorem resolve_steady : Steady inModule [] (resolve env name line) := by
  unfold resolve
  refine .getScope_bind fun scope _ => ?_
  split
  · exact .pure
  · exact .bind_quiet (.modifyScope fun _ => rfl) fun _ => .pure
  · exact .unbound
  · split
    · exact .pure
    · refine .get_bind (fun s t h => by rw [h.grows.contains_eq]) fun s => ?_
      exact .ite (fun _ => .fail rfl) fun _ => .unbound

theorem elementKind_steady : Steady inModule [] (elementKind env name line) := by
  unfold elementKind
  refine .bind_quiet (resolve_steady env name line) fun kind => ?_
  split
  · exact .pure
  · exact .mismatch

end Names

section Calls

variable {α : Type} {env : Env} {callee : String} {line : Nat} {asStatement : Bool}
  {args : List Expr} {argKinds : Infer (List Kind)}

theorem promoteAll_calm {kinds : List Kind} {widest : Option Kind} {e : Error}
    (h : promoteAll callee line widest kinds = .error e) : e.asksAnnotation = false := by
  induction kinds generalizing widest with
  | nil =>
    cases widest <;> cases h
    rfl
  | cons kind kinds ih =>
    have hcases : promoteAll callee line widest (kind :: kinds) =
        .error (.mismatch line (.arguments callee) .number (.kind kind)) ∨
        ∃ next, promoteAll callee line widest (kind :: kinds) =
          promoteAll callee line (some next) kinds := by
      by_cases hnumeric : kind.isNumeric = true
      · cases widest <;> exact .inr ⟨_, if_pos hnumeric⟩
      · cases widest <;> exact .inl (if_neg hnumeric)
    rcases hcases with hcase | ⟨next, hcase⟩
    · rw [hcase] at h
      cases h
      rfl
    · exact ih (hcase ▸ h)

/-- Parameters with kinds are left as they are, unless an argument does not fit. -/
theorem matchParams_known {params : List (String × Option Kind)}
    (hparams : ∀ p ∈ params, ∃ kind, p.2 = some kind) (position : Nat) (kinds : List Kind) :
    matchParams callee line position params kinds = pure params ∨
      ∃ subject expected found,
        matchParams callee line position params kinds = mismatch line subject expected found := by
  induction params generalizing position kinds with
  | nil => exact .inl rfl
  | cons param params ih =>
    obtain ⟨⟨known, hknown⟩, hparams'⟩ := List.forall_mem_cons.mp hparams
    obtain ⟨name, slot⟩ := param
    obtain rfl : slot = some known := hknown
    cases kinds with
    | nil => exact .inl rfl
    | cons kind kinds =>
      unfold matchParams
      by_cases haccepts : (!known.accepts kind) = true
      · rw [if_pos haccepts]
        exact .inr ⟨_, _, _, rfl⟩
      · rw [if_neg haccepts]
        rcases ih hparams' (position + 1) kinds with h | ⟨subject, expected, found, h⟩
        · rw [h]
          exact .inl rfl
        · rw [h]
          exact .inr ⟨subject, expected, found, rfl⟩

/-- What a call gives is the same where more is known, and a call that is a statement gives nothing
that is used. -/
theorem callResult_follows {use : Kind → Infer α} (huse : asStatement = true → ∀ a b, use a = use b)
    (hquiet : ∀ kind, Steady inModule [] (use kind)) {s t : State} (h : Informed inModule s t)
    (hbody : inModule = false) {slots slots' : Slots} (hs : s.functions.find? callee = some slots)
    (hgrows : slots.Grows slots') :
    Follows inModule (if asStatement then [] else [callee])
      (callResult callee line asStatement slots.returns >>= use)
      (callResult callee line asStatement slots'.returns >>= use) s t := by
  cases asStatement with
  | true =>
    have hvoid : ∀ result, callResult callee line true result >>= use = use .void := by
      intro result
      unfold callResult
      split
      · exact pure_bind Kind.void use
      · exact pure_bind Kind.void use
      · exact (pure_bind _ use).trans (huse rfl _ _)
    rw [hvoid, hvoid]
    exact hquiet .void s t h
  | false =>
    cases hresult : slots.returns with
    | none =>
      intro r s' hends
      obtain ⟨rfl, rfl⟩ := ends_throw.mp hends
      refine ⟨rfl, .wait hbody (List.mem_singleton_self _) fun hsettled => ?_⟩
      have := hsettled slots hs
      rw [hresult] at this
      cases this
    | some kind =>
      rw [hgrows.returns.of_some hresult]
      have hsettled : s.functions.Settled callee := by
        intro other ho
        cases hs.symm.trans ho
        rw [hresult]
        rfl
      have hgives : Steady inModule [] (callResult callee line false (some kind)) := by
        unfold callResult
        split
        · contradiction
        · exact .fail rfl
        · exact .pure
      exact (hgives.bind_quiet hquiet s t h).weaken (List.nil_subset _) (by simpa using hsettled)

/-- A call of a function needs its result, unless the call is a statement. -/
theorem userCall_steady {callees : List String} {use : Kind → Infer α}
    (huse : asStatement = true → ∀ a b, use a = use b)
    (hquiet : ∀ kind, Steady inModule [] (use kind)) (hbody : inModule = false)
    (hargs : Steady inModule callees argKinds) :
    Steady inModule (callees ++ if asStatement then [] else [callee])
      (userCall callee line asStatement argKinds >>= use) := by
  simp only [userCall, bind_assoc]
  refine .bind hargs fun kinds s t h => .get_bind ?_
  cases hs : s.functions.find? callee with
  | none =>
    rw [h.grows.none hs]
    exact Steady.internal s t h
  | some slots =>
    obtain ⟨slots', ht, hgrows⟩ := h.grows.some hs
    have hopen := h.known.params hs
    have hparams := hgrows.params_eq hopen
    rw [ht]
    dsimp only
    rw [hparams]
    by_cases hlen : slots.params.length ≠ kinds.length
    · rw [if_pos hlen, if_pos hlen]
      exact Steady.mismatch s t h
    rw [if_neg hlen, if_neg hlen]
    rcases matchParams_known (Slots.openParam?_eq_none.mp hopen) 1 kinds with hm | ⟨_, _, _, hm⟩
    · rw [hm]
      simp only [pure_bind, bind_assoc]
      -- the parameters that the call writes back are those that it found
      have hsame : ∀ {u : State} {known : Slots}, u.functions.Known →
          u.functions.find? callee = some known → known.params = slots.params →
          { u with functions := u.functions.update callee fun other =>
            { other with params := slots.params } } = u := by
        intro u known hu hk hp
        rw [Functions.update_eq_self hu.nodup fun other ho => ?_]
        cases hk.symm.trans ho
        rw [← hp]
      exact .modify_bind (hsame h.known hs rfl) (hsame h.knownLater ht hparams)
        (callResult_follows huse hquiet h hbody hs hgrows)
    · rw [hm]
      exact Steady.mismatch s t h

theorem unknownCall_steady {callees : List String} (hargs : Steady inModule callees argKinds) :
    Steady inModule callees (unknownCall callee line asStatement argKinds) := by
  unfold unknownCall
  refine .bind_quiet hargs fun _ => .getScope_bind fun scope _ => ?_
  refine .check rfl rfl fun _ => .ite (fun _ => ?_) fun _ => .fail rfl
  exact .bind_quiet .emit fun _ => .pure

theorem ruleResult_steady {rule : CallRule} {kinds : List Kind} :
    Steady inModule [] (ruleResult rule callee line asStatement kinds) := by
  unfold ruleResult
  split
  · exact .ite (fun _ => .pure) fun _ => .fail rfl
  · exact .pure
  · split
    · exact .pure
    · next h => exact .fail (promoteAll_calm h)

theorem runtimeCall_steady {rule : CallRule} (hrule : rule.Sound)
    (hargs : Steady inModule (Expr.calleesAll args) argKinds) :
    Steady inModule (Expr.calleesAll args)
      (runtimeCall env rule callee line asStatement args argKinds) := by
  have harguments : (∀ n, rule.arity = some n → n = args.length) →
      Steady inModule (Expr.calleesAll args) (ruleArguments env rule line args argKinds) := by
    intro harity
    unfold ruleArguments
    split
    · exact .fail rfl
    · next hform =>
      have hlen := harity 1 (hrule.listLength hform).1
      split
      · cases hlen
      · next list rest =>
        obtain rfl : rest = [] := List.length_eq_zero_iff.mp (Nat.succ.inj hlen).symm
        exact .bind_quiet (elementKind_steady env list line) fun _ => .pure
      · exact .bind_quiet hargs fun _ => .mismatch
    · exact hargs
  have hrest : ∀ kinds, Steady inModule [] (do
      if refusesString rule && kinds.head? == some .str then
        unsupported line (.stringConversion callee)
      ruleResult rule callee line asStatement kinds : Infer Kind) :=
    fun kinds => .check rfl rfl fun _ => ruleResult_steady
  unfold runtimeCall
  cases harity : rule.arity with
  | none =>
    rw [checkArity, pure_bind]
    exact .bind_quiet (harguments (by simp [harity])) hrest
  | some n =>
    by_cases hn : n = args.length
    · simp only [checkArity, ne_eq, hn, not_true_eq_false, if_false, pure_bind]
      exact .bind_quiet (harguments (by simp [harity, hn])) hrest
    · simp only [checkArity, ne_eq, hn, not_false_eq_true, if_true]
      exact .mismatch

/-- A call needs the results that its arguments need and, as a value, the result of its callee. -/
theorem callKind_steady {use : Kind → Infer α} (htable : env.table.Sound)
    (huse : asStatement = true → ∀ a b, use a = use b)
    (hquiet : ∀ kind, Steady inModule [] (use kind))
    (hargs : Steady inModule (Expr.calleesAll args) argKinds) :
    Steady inModule (Expr.calleesAll args ++ if asStatement then [] else [callee])
      (callKind env callee line asStatement args argKinds >>= use) := by
  intro s t h
  simp only [callKind, bind_assoc]
  refine .get_bind ?_
  rw [h.grows.contains_eq]
  by_cases hfunction : s.functions.contains callee = true
  · rw [if_pos hfunction, bind_assoc]
    refine Steady.getScope_bind (fun scope hscope => ?_) s t h
    rw [hscope]
    by_cases hmodule : inModule = true
    · rw [if_pos hmodule]
      exact .fail rfl
    · rw [if_neg hmodule]
      exact userCall_steady huse hquiet (by simpa using hmodule) hargs
  · rw [if_neg hfunction]
    have hsettled : s.functions.Settled callee := by
      intro slots hs
      exact absurd (Functions.contains_iff.mpr ⟨slots, hs⟩) hfunction
    refine .weaken ?_ (List.subset_append_left ..) fun other ho => ?_
    · refine Steady.bind_quiet ?_ hquiet s t h
      split
      · exact unknownCall_steady hargs
      · next rule hrule => exact runtimeCall_steady (htable.call hrule) hargs
    · refine (List.mem_append.mp ho).imp id fun hcallee => ?_
      cases asStatement with
      | true => cases hcallee
      | false => exact List.mem_singleton.mp hcallee ▸ hsettled

end Calls

section Expressions

variable {env : Env} {line : Nat}

theorem binaryKind_calm {op : BinOp} {a b : Kind} {e : Error}
    (h : binaryKind op a b line = .error e) : e.asksAnnotation = false := by
  revert h
  unfold binaryKind
  dsimp only
  split_ifs <;> intro h
  all_goals repeat' first
    | (cases h <;> rfl)
    | split at h

theorem exprKinds_steady {es : List Expr}
    (hes : ∀ e ∈ es, Steady inModule e.callees (exprKind env line e)) :
    Steady inModule (Expr.calleesAll es) (exprKinds env line es) := by
  induction es with
  | nil => exact .pure
  | cons e es ih =>
    obtain ⟨he, hes⟩ := List.forall_mem_cons.mp hes
    rw [Expr.calleesAll_cons]
    exact .bind he fun _ => .bind_quiet (ih hes) fun _ => .pure

/-- An expression needs the results of all calls in it. -/
theorem exprKind_steady (htable : env.table.Sound) (e : Expr) :
    Steady inModule e.callees (exprKind env line e) := by
  induction e with
  | literal value => exact .pure
  | name id =>
    unfold exprKind
    exact .bind_quiet (resolve_steady env id line) fun _ => .check rfl rfl fun _ => .pure
  | unary sign operand ih =>
    unfold exprKind
    exact .bind_quiet ih fun _ => .check rfl rfl fun _ => .pure
  | binary left op right ihl ihr =>
    unfold exprKind
    rw [Expr.callees_binary]
    refine .bind ihl fun a => .bind_quiet ihr fun b => ?_
    split
    · exact .pure
    · next h => exact .fail (binaryKind_calm h)
  | call callee args ih =>
    unfold exprKind
    have hcall : Steady inModule (Expr.calleesAll args ++ [callee])
        (callKind env callee line false args (exprKinds env line args) >>= pure) :=
      callKind_steady htable nofun (fun _ => .pure) (exprKinds_steady ih)
    rw [bind_pure] at hcall
    have hperm := List.perm_append_singleton callee (Expr.calleesAll args)
    exact fun s t h => (hcall s t h).weaken hperm.subset fun other ho => .inl (hperm.symm.subset ho)
  | index list position ih =>
    unfold exprKind
    refine .quiet_bind (elementKind_steady env list line) fun _ => .bind_quiet ih fun _ => ?_
    exact .check rfl rfl fun _ => .pure
  | list items ih => exact .fail rfl

end Expressions

section Assignments

variable {env : Env} {line : Nat} {name : String} {declared : Option Kind}

theorem itemsKind_steady (htable : env.table.Sound) (items : List Expr) (first : Option Kind) :
    Steady inModule (Expr.calleesAll items) (itemsKind env line first items) := by
  induction items generalizing first with
  | nil =>
    unfold itemsKind
    cases first with
    | none => exact .fail rfl
    | some kind => exact .pure
  | cons item items ih =>
    unfold itemsKind
    rw [Expr.calleesAll_cons]
    refine .check rfl rfl fun _ => .bind (exprKind_steady htable item) fun kind => ?_
    cases first with
    | none => exact ih (some kind)
    | some expected => exact .check rfl rfl fun _ => ih (some expected)

theorem assignedKind_steady (htable : env.table.Sound) (value : Expr) :
    Steady inModule value.callees (assignedKind env line value) := by
  unfold assignedKind
  split
  · next items =>
    refine .get_bind (fun s t h => by rw [h.frame]) fun s => .check rfl rfl fun _ => ?_
    exact .bind_quiet (itemsKind_steady htable items none) fun _ => .pure
  · exact exprKind_steady htable value

theorem checkLoopVar_steady : Steady inModule [] (checkLoopVar name line) := by
  unfold checkLoopVar
  refine .get_bind (fun s t h => by rw [h.frame]) fun s => ?_
  exact .ite (fun _ => .fail rfl) fun _ => .pure

theorem checkRedeclared_steady {existing : Kind} :
    Steady inModule [] (checkRedeclared name existing line declared) := by
  unfold checkRedeclared
  cases declared with
  | none => exact .pure
  | some kind => exact .ite (fun _ => .mismatch) fun _ => .pure

theorem reassign_steady {existing kind : Kind} :
    Steady inModule [] (reassign name existing kind declared line) := by
  unfold reassign
  refine .check rfl rfl fun _ => .quiet_bind checkRedeclared_steady fun _ => ?_
  exact .check rfl rfl fun _ => .pure

theorem checkDeclared_steady {kind : Kind} :
    Steady inModule [] (checkDeclared name kind line declared) := by
  unfold checkDeclared
  cases declared with
  | none => exact .pure
  | some expected => exact .ite (fun _ => .mismatch) fun _ => .pure

theorem declare_steady {kind : Kind} : Steady inModule [] (declare name kind declared line) := by
  unfold declare
  refine .quiet_bind checkDeclared_steady fun _ => ?_
  refine .quiet_bind (.modifyScope fun _ => rfl) fun _ => ?_
  refine .get_bind (fun s t h => by rw [h.frame]) fun s => .ite (fun _ => .pure) fun _ => ?_
  exact .quiet_bind (.modifyFrame fun _ => rfl) fun _ => .pure

theorem boundKind_steady {reason : Unbound} : Steady inModule [] (boundKind name line reason) := by
  unfold boundKind
  refine .getScope_bind fun scope _ => ?_
  split
  · exact .pure
  · exact .ite (fun _ => .pure) fun _ => .ite (fun _ => .unbound) fun _ => .pure
  · exact .ite (fun _ => .unbound) fun _ => .pure
  · exact .pure

theorem checkAssignable_steady : Steady inModule [] (checkAssignable env name line) := by
  unfold checkAssignable
  refine .getScope_bind fun scope _ => ?_
  refine .get_bind (fun s t h => by rw [h.grows.contains_eq]) fun s => ?_
  refine .check rfl rfl fun _ => .check rfl rfl fun _ => ?_
  exact checkLoopVar_steady

theorem assignName_steady (htable : env.table.Sound) (value : Expr) :
    Steady inModule value.callees (assignName env name value declared line) := by
  unfold assignName
  refine .quiet_bind checkAssignable_steady fun _ => ?_
  refine .bind_quiet (assignedKind_steady htable value) fun kind => ?_
  refine .quiet_bind boundKind_steady fun existing => ?_
  cases existing with
  | none => exact declare_steady
  | some existing =>
    exact .getScope_bind fun scope _ => .ite (fun _ => .fail rfl) fun _ => reassign_steady

theorem assignElement_steady (htable : env.table.Sound) (list : String) (position value : Expr) :
    Steady inModule (position.callees ++ value.callees)
      (assignElement env list position value line) := by
  unfold assignElement
  refine .getScope_bind fun scope _ => .check rfl rfl fun _ => ?_
  refine .quiet_bind (elementKind_steady env list line) fun element => ?_
  refine .bind (exprKind_steady htable position) fun index => .check rfl rfl fun _ => ?_
  refine .bind_quiet (exprKind_steady htable value) fun kind => ?_
  exact .check rfl rfl fun _ => .pure

theorem assignTarget_steady (htable : env.table.Sound) (target : Target) (value : Expr) :
    Steady inModule (target.callees ++ value.callees)
      (assignTarget env target value declared line) := by
  cases target with
  | name id => exact assignName_steady htable value
  | element list position => exact assignElement_steady htable list position value

end Assignments

section Statements

variable {env : Env} {line : Nat}

theorem checkBound_steady (htable : env.table.Sound) (bound : Expr) :
    Steady inModule bound.callees (checkBound env line bound) := by
  unfold checkBound
  exact .bind_quiet (exprKind_steady htable bound) fun _ => .ite (fun _ => .mismatch) fun _ => .pure

theorem checkBounds_steady (htable : env.table.Sound) (bounds : Bounds) :
    Steady inModule bounds.callees (checkBounds env line bounds) := by
  unfold checkBounds Bounds.callees
  cases bounds.start with
  | none => exact checkBound_steady htable bounds.stop
  | some start =>
    exact .bind (checkBound_steady htable start) fun _ => checkBound_steady htable bounds.stop

theorem bindLoopVar_steady {var : String} : Steady inModule [] (bindLoopVar var line) := by
  unfold bindLoopVar
  refine .quiet_bind checkLoopVar_steady fun _ => .quiet_bind boundKind_steady fun existing => ?_
  cases existing with
  | none => exact .quiet_bind (.modifyScope fun _ => rfl) fun _ => .pure
  | some kind => exact .check rfl rfl fun _ => .pure

theorem releaseLoopVar_steady {var : String} {binding : Binding} :
    Steady inModule [] (releaseLoopVar var binding) := by
  unfold releaseLoopVar
  split
  · exact .modifyScope fun _ => rfl
  · exact .pure

theorem checkCondition_steady (htable : env.table.Sound) (condition : Expr) :
    Steady inModule condition.callees (checkCondition env line condition) := by
  unfold checkCondition
  exact .bind_quiet (exprKind_steady htable condition) fun _ =>
    .ite (fun _ => .mismatch) fun _ => .pure

/-- Of a call that is a statement only the arguments need results. -/
theorem checkStatement_steady (htable : env.table.Sound) (value : Expr) :
    Steady inModule (Stmt.expr line value).needed (checkStatement env line value) := by
  cases value with
  | call callee args =>
    have hcall : Steady inModule (Expr.calleesAll args ++ [])
        (callKind env callee line true args (exprKinds env line args) >>= fun _ => pure ()) :=
      callKind_steady htable (fun _ _ _ => rfl) (fun _ => .pure)
        (exprKinds_steady fun e _ => exprKind_steady htable e)
    rwa [List.append_nil] at hcall
  | _ => exact .bind_quiet (exprKind_steady htable _) fun _ => .pure

theorem checkReturned_steady {owner : Owner} {kind : Kind} :
    Steady inModule [] (checkReturned owner kind line) := by
  unfold checkReturned
  split
  · exact .ite (fun _ => .mismatch) fun _ => .pure
  · refine .get_bind (fun s t h => by rw [h.frame]) fun s => ?_
    split
    · exact .ite (fun _ => .mismatch) fun _ => .pure
    · exact .modifyFrame fun _ => rfl

theorem inferReturn_steady (htable : env.table.Sound) (value : Option Expr) :
    Steady inModule (Stmt.give line value).needed (inferReturn env value line) := by
  unfold inferReturn
  have hgiven : Steady inModule (Stmt.give line value).needed (givenKind env line value) := by
    cases value with
    | none => exact .pure
    | some value => exact exprKind_steady htable value
  refine .bind_quiet hgiven fun kind => ?_
  split
  · exact .internal
  · exact .check rfl rfl fun _ => checkReturned_steady

theorem shareGlobal_steady {name : String} : Steady inModule [] (shareGlobal name line) := by
  unfold shareGlobal
  refine .getScope_bind fun scope _ => .check rfl rfl fun _ => ?_
  split
  · exact .modifyScope fun _ => rfl
  · exact .unbound
  · exact .unbound
  · exact .unbound

theorem shareGlobals_steady (names : List String) :
    Steady inModule [] (shareGlobals line names) := by
  induction names with
  | nil => exact .pure
  | cons name names ih => exact .quiet_bind shareGlobal_steady fun _ => ih

mutual

/-- A statement needs the results of the calls in it whose values are used. -/
theorem inferStmt_steady (htable : env.table.Sound) :
    ∀ stmt, Steady inModule (Stmt.needed stmt) (inferStmt env stmt)
  | .assign line target value declared _ =>
    .bind_quiet (assignTarget_steady htable target value) fun _ => .pure
  | .conditional line condition thenBody elseBody => by
    unfold inferStmt Stmt.needed
    refine .bind (checkCondition_steady htable condition) fun _ => ?_
    refine .quiet_bind (.modifyFrame fun _ => rfl) fun _ => ?_
    refine .bind (inferBlock_steady htable thenBody) fun _ => ?_
    refine .bind_quiet (inferBlock_steady htable elseBody) fun _ => ?_
    exact .quiet_bind (.modifyFrame fun _ => rfl) fun _ => .pure
  | .loop line var bounds _ body => by
    unfold inferStmt Stmt.needed
    refine .bind (checkBounds_steady htable bounds) fun _ => ?_
    refine .quiet_bind bindLoopVar_steady fun binding => ?_
    refine .quiet_bind (.modifyFrame fun _ => rfl) fun _ => ?_
    refine .quiet_bind (.modifyFrame fun _ => rfl) fun _ => ?_
    refine .bind_quiet (inferBlock_steady htable body) fun _ => ?_
    refine .quiet_bind (.modifyFrame fun _ => rfl) fun _ => ?_
    refine .quiet_bind (.modifyFrame fun _ => rfl) fun _ => ?_
    exact .quiet_bind releaseLoopVar_steady fun _ => .pure
  | .expr line value => .bind_quiet (checkStatement_steady htable value) fun _ => .pure
  | .give line value => .bind_quiet (inferReturn_steady htable value) fun _ => .pure
  | .global line names => .quiet_bind (shareGlobals_steady names) fun _ => .pure
  | .function .. => .internal
  | .comment .. | .blank _ | .pass _ | .stop _ | .skip _ => .pure

theorem inferBlock_steady (htable : env.table.Sound) :
    ∀ stmts, Steady inModule (Stmt.neededIn stmts) (inferBlock env stmts)
  | [] => .pure
  | stmt :: stmts => .bind (inferStmt_steady htable stmt) fun _ =>
    .bind_quiet (inferBlock_steady htable stmts) fun _ => .pure

end

end Statements

end Inference

end Sketchwright
