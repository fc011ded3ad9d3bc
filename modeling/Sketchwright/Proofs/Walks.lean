import Sketchwright.Proofs.Extension
import Sketchwright.Proofs.Scoping

/-! What a run of inference that ends well does to the names of a body, for any tree. Reading an
expression marks outer variables and does nothing else to the frame, and a statement binds names by
the rules of binding, reading what the rules read. -/

namespace Sketchwright.Inference

/-- The reason for slots to be filled where it does not matter. -/
abbrev NoReason : Reason := fun _ _ _ _ => True

theorem ends_fail_bind {α β : Type} {e : Error} {f : α → Infer β} {s s' : State}
    {r : Except Stall β} :
    Ends (fail e >>= f) s r s' ↔ r = .error (.failed e) ∧ s' = s :=
  ends_value rfl

theorem ParamsGrow.names {ps qs : List (String × Option Kind)} (h : ParamsGrow ps qs) :
    qs.map Prod.fst = ps.map Prod.fst := by
  induction h with
  | nil => rfl
  | cons hp _ ih => rw [List.map_cons, List.map_cons, hp.1, ih]

/-- The parameters of a function, by name. -/
def Slots.paramNames (s : Slots) : List String := s.params.map Prod.fst

namespace Functions

/-- The same functions, with the same parameters. -/
def Alike (old new : Functions) : Prop :=
  ∀ name, (new.find? name).map Slots.paramNames = (old.find? name).map Slots.paramNames

variable {fs gs hs : Functions}

theorem Alike.refl (fs : Functions) : fs.Alike fs := fun _ => rfl

theorem Alike.trans (h₁ : fs.Alike gs) (h₂ : gs.Alike hs) : fs.Alike hs :=
  fun name => (h₂ name).trans (h₁ name)

theorem Grows.alike (h : fs.Grows gs) : fs.Alike gs := by
  intro name
  cases hfind : fs.find? name with
  | none => rw [h.none hfind]
  | some s =>
    obtain ⟨t, ht, hgrows⟩ := h.some hfind
    rw [ht, Option.map_some, Option.map_some]
    exact congrArg Option.some (ParamsGrow.names hgrows.params)

theorem alike_update {name : String} {f : Slots → Slots} (hname : ∀ s, (f s).name = s.name)
    (hparams : ∀ s, fs.find? name = some s → (f s).paramNames = s.paramNames) :
    fs.Alike (fs.update name f) := by
  intro other
  rw [find?_update _ _ _ _ hname]
  by_cases hother : other = name
  · subst hother
    rw [if_pos rfl, Option.map_map]
    cases hfind : fs.find? other with
    | none => rfl
    | some s => exact congrArg some (hparams s hfind)
  · rw [if_neg hother]

end Functions

/-- However the attempt ends from `s`, the functions keep their parameters. -/
def KeepsFrom {α : Type} (s : State) (x : Infer α) : Prop :=
  ∀ ⦃r s'⦄, Ends x s r s' → s.functions.Alike s'.functions

def Keeps {α : Type} (x : Infer α) : Prop := ∀ s, KeepsFrom s x

/-- From `s` a value comes only after these variables are read, in this order, each of which has a
kind then, and nothing else happens to the frame. -/
structure ReadsFrom (table : CallTable) {α : Type} (s : State) (x : Infer α) (names : List String) :
    Prop where
  keeps : KeepsFrom s x
  known : ∀ ⦃a s'⦄, Ends x s (.ok a) s' → s.frame.scope.Knows table names
  frame : ∀ ⦃a s'⦄, Ends x s (.ok a) s' → s'.frame = s.frame.readAll names

def Reads (table : CallTable) {α : Type} (x : Infer α) (names : List String) : Prop :=
  ∀ s, ReadsFrom table s x names

section Combinators

variable {table : CallTable} {α β : Type} {s : State} {x y : Infer α} {f : α → Infer β}
  {names more : List String}

namespace KeepsFrom

theorem bind (hx : KeepsFrom s x) (hf : ∀ a s₁, Ends x s (.ok a) s₁ → KeepsFrom s₁ (f a)) :
    KeepsFrom s (x >>= f) := by
  intro r s' h
  cases r with
  | ok b =>
    obtain ⟨a, s₁, hfirst, hrest⟩ := ends_bind_ok.mp h
    exact (hx hfirst).trans (hf a s₁ hfirst hrest)
  | error stall =>
    rcases ends_bind_error.mp h with hfirst | ⟨a, s₁, hfirst, hrest⟩
    · exact hx hfirst
    · exact (hx hfirst).trans (hf a s₁ hfirst hrest)

theorem fail_bind {e : Error} : KeepsFrom s (Inference.fail e >>= f) := by
  intro r s' h
  obtain ⟨_, rfl⟩ := ends_fail_bind.mp h
  exact .refl _

theorem get_bind {f : State → Infer β} (h : KeepsFrom s (f s)) :
    KeepsFrom s (MonadState.get >>= f) := by
  intro r s' hends
  have hget : endOf (MonadState.get >>= f) s = endOf (f s) s := endOf_bind ..
  exact h (hget.symm.trans hends)

theorem of_runs {Q : α → State → Prop} (h : Runs NoReason x s Q) : KeepsFrom s x := by
  intro r s' hends
  exact (h.effect hends).grows.alike

end KeepsFrom

namespace Keeps

theorem of_runs {Q : State → α → State → Prop} (h : ∀ s, Runs NoReason x s (Q s)) : Keeps x :=
  fun s => .of_runs (h s)

theorem pure (a : α) : Keeps (Pure.pure a) := by
  intro s r s' h
  obtain ⟨_, rfl⟩ := ends_pure.mp h
  exact .refl _

theorem throw {stall : Stall} : Keeps (throw stall : Infer α) := by
  intro s r s' h
  obtain ⟨_, rfl⟩ := ends_throw.mp h
  exact .refl _

theorem fail {e : Error} : Keeps (Inference.fail e : Infer α) := throw

theorem bind (hx : Keeps x) (hf : ∀ a, Keeps (f a)) : Keeps (x >>= f) :=
  fun s => (hx s).bind fun a s₁ _ => hf a s₁

theorem ite {c : Prop} [Decidable c] (hx : Keeps x) (hy : Keeps y) :
    Keeps (if c then x else y) := by
  split
  · exact hx
  · exact hy

theorem check {c : Prop} [Decidable c] {e : Error} {f : Unit → Infer β} (hf : Keeps (f ())) :
    Keeps (if c then Inference.fail e >>= f else f ()) := ite (fun _ => .fail_bind) hf

theorem get_bind {f : State → Infer β} (h : ∀ s, Keeps (f s)) : Keeps (MonadState.get >>= f) :=
  fun s => .get_bind (h s s)

theorem getScope_bind {f : Scope → Infer β} (h : ∀ scope, Keeps (f scope)) :
    Keeps (getScope >>= f) := by
  intro s
  apply KeepsFrom.bind
  · intro r s' hends
    obtain ⟨_, rfl⟩ := ends_getScope.mp hends
    exact .refl _
  · exact fun scope s₁ _ => h scope s₁

theorem modify {f : State → State} (hf : ∀ s : State, s.functions.Alike (f s).functions) :
    Keeps (modify f : Infer Unit) := by
  intro s r s' h
  obtain ⟨_, rfl⟩ := ends_modify.mp h
  exact hf s

theorem modifyFrame (f : Frame → Frame) : Keeps (Inference.modifyFrame f) :=
  modify fun _ => .refl _

theorem emit (event : Event) : Keeps (Inference.emit event) := modify fun _ => .refl _

end Keeps

namespace ReadsFrom

theorem bind (hx : ReadsFrom table s x names)
    (hf : ∀ a s₁, Ends x s (.ok a) s₁ → ReadsFrom table s₁ (f a) more) :
    ReadsFrom table s (x >>= f) (names ++ more) := by
  constructor
  · exact hx.keeps.bind fun a s₁ hfirst => (hf a s₁ hfirst).keeps
  · intro b s' h
    obtain ⟨a, s₁, hfirst, hrest⟩ := ends_bind_ok.mp h
    have hmore := (hf a s₁ hfirst).known hrest
    rw [hx.frame hfirst] at hmore
    exact (hx.known hfirst).append hmore.of_readAll
  · intro b s' h
    obtain ⟨a, s₁, hfirst, hrest⟩ := ends_bind_ok.mp h
    rw [(hf a s₁ hfirst).frame hrest, hx.frame hfirst, Frame.readAll_append]

theorem before (hx : ReadsFrom table s x [])
    (hf : ∀ a s₁, Ends x s (.ok a) s₁ → ReadsFrom table s₁ (f a) more) :
    ReadsFrom table s (x >>= f) more :=
  hx.bind hf

theorem fail {e : Error} : ReadsFrom table s (Inference.fail e : Infer α) names := by
  constructor
  · exact Keeps.fail s
  · intro a s' h
    exact absurd h (by simp)
  · intro a s' h
    exact absurd h (by simp)

theorem ite {c : Prop} [Decidable c] (hx : ReadsFrom table s x names)
    (hy : ReadsFrom table s y names) :
    ReadsFrom table s (if c then x else y) names := by
  split
  · exact hx
  · exact hy

/-- A check that fails, or lets the rest go on. -/
theorem check {c : Prop} [Decidable c] {e : Error} {f : Unit → Infer β}
    (hf : ¬c → ReadsFrom table s (f ()) names) :
    ReadsFrom table s (if c then Inference.fail e >>= f else f ()) names := by
  by_cases h : c
  · rw [if_pos h]
    constructor
    · exact .fail_bind
    · intro b s' hends
      exact nomatch (ends_fail_bind.mp hends).1
    · intro b s' hends
      exact nomatch (ends_fail_bind.mp hends).1
  · rw [if_neg h]
    exact hf h

theorem get_bind {f : State → Infer β} (h : ReadsFrom table s (f s) names) :
    ReadsFrom table s (MonadState.get >>= f) names := by
  have hget : endOf (MonadState.get >>= f) s = endOf (f s) s := endOf_bind ..
  constructor
  · exact .get_bind h.keeps
  · intro a s' hends
    exact h.known (hget.symm.trans hends)
  · intro a s' hends
    exact h.frame (hget.symm.trans hends)

theorem of_runs (h : Runs NoReason x s fun _ s' =>
    s'.frame = s.frame.readAll names ∧ s.frame.scope.Knows table names) :
    ReadsFrom table s x names := by
  constructor
  · exact .of_runs h
  · intro a s' hends
    exact (h.ok hends).2
  · intro a s' hends
    exact (h.ok hends).1

end ReadsFrom

theorem Reads.frame (h : Reads table x names) {s' : State} {a : α} (hends : Ends x s (.ok a) s') :
    s'.frame = s.frame.readAll names := (h s).frame hends

theorem Reads.keeps (h : Reads table x names) : Keeps x := fun s => (h s).keeps

namespace Reads

/-- What leaves the frame as it is reads nothing. -/
theorem of_runs (h : ∀ s, Runs NoReason x s fun _ s' => s'.frame = s.frame) : Reads table x [] :=
  fun s => .of_runs ((h s).imp fun _ _ _ hframe => ⟨hframe, .nil⟩)

theorem pure (a : α) : Reads table (Pure.pure a) [] := of_runs fun _ => .pure rfl

theorem fail {e : Error} : Reads table (Inference.fail e : Infer α) names := fun _ => .fail

theorem emit (event : Event) : Reads table (Inference.emit event) [] := of_runs fun _ => .emit rfl

theorem bind (hx : Reads table x names) (hf : ∀ a, Reads table (f a) more) :
    Reads table (x >>= f) (names ++ more) :=
  fun s => (hx s).bind fun a s₁ _ => hf a s₁

/-- Steps that read nothing may come before or after. -/
theorem before (hx : Reads table x []) (hf : ∀ a, Reads table (f a) more) :
    Reads table (x >>= f) more :=
  bind hx hf

theorem after (hx : Reads table x names) (hf : ∀ a, Reads table (f a) []) :
    Reads table (x >>= f) names := by
  have h := bind hx hf
  rwa [List.append_nil] at h

theorem get_bind {f : State → Infer β} (h : ∀ s, Reads table (f s) names) :
    Reads table (MonadState.get >>= f) names := fun s => .get_bind (h s s)

theorem getScope_bind {f : Scope → Infer β} (h : ∀ scope, Reads table (f scope) names) :
    Reads table (getScope >>= f) names := before (of_runs fun _ => .getScope_bind (.pure rfl)) h

theorem ite {c : Prop} [Decidable c] (hx : Reads table x names) (hy : Reads table y names) :
    Reads table (if c then x else y) names := fun s => (hx s).ite (hy s)

theorem check {c : Prop} [Decidable c] {e : Error} {f : Unit → Infer β}
    (hf : Reads table (f ()) names) :
    Reads table (if c then Inference.fail e >>= f else f ()) names := fun s => .check fun _ => hf s

end Reads

end Combinators

section Expressions

variable {env : Env} {table : CallTable} {line : Nat}

theorem resolve_reads (name : String) : Reads env.table (resolve env name line) [name] :=
  fun _ => .of_runs ((resolve_runs env name line).imp fun _ _ _ ⟨hframe, _, hkind⟩ =>
    ⟨hframe, .singleton hkind⟩)

theorem elementKind_reads (name : String) : Reads env.table (elementKind env name line) [name] :=
  fun _ => .of_runs ((elementKind_runs env name line).imp fun _ _ _ ⟨hframe, _, _, hkind⟩ =>
    ⟨hframe, .singleton hkind⟩)

theorem matchParams_reads (callee : String) (position : Nat) (params : List (String × Option Kind))
    (kinds : List Kind) : Reads table (matchParams callee line position params kinds) [] :=
  .of_runs fun s => (matchParams_runs callee line params position kinds s).imp fun _ _ _ h => h.2.1

theorem callResult_reads (callee : String) (asStatement : Bool) (result : Option Kind) :
    Reads table (callResult callee line asStatement result) [] :=
  .of_runs fun _ => (callResult_runs callee line asStatement result).imp fun _ _ _ h => h.1 ▸ rfl

variable {callee : String} {asStatement : Bool} {args : List Expr} {argKinds : Infer (List Kind)}

/-- A call of a function fills slots of its parameters, whose names stay. -/
theorem userCall_reads {names : List String} (hargs : Reads table argKinds names) :
    Reads table (userCall callee line asStatement argKinds) names := by
  apply hargs.after
  intro kinds s
  apply ReadsFrom.get_bind
  cases hslots : s.functions.find? callee with
  | none => exact .fail
  | some slots =>
    apply ReadsFrom.check
    intro hlength
    apply (matchParams_reads callee 1 slots.params kinds s).bind
    intro filled s₁ hends
    have hruns : Runs NoReason (matchParams callee line 1 slots.params kinds) s _ :=
      matchParams_runs callee line slots.params 1 kinds s
    obtain ⟨hfunctions, _, hfills⟩ := hruns.ok hends
    obtain ⟨rfl, _⟩ := hfills (not_ne_iff.mp hlength)
    have hgrows := fillParams_grows (not_ne_iff.mp hlength)
    apply ReadsFrom.before
    · constructor
      · intro r s' hmodify
        obtain ⟨_, rfl⟩ := ends_modify.mp hmodify
        rw [hfunctions]
        apply Functions.alike_update
        · exact fun _ => rfl
        · intro other hother
          cases hslots.symm.trans hother
          exact hgrows.names
      · exact fun _ _ _ => .nil
      · intro a s' hmodify
        obtain ⟨_, rfl⟩ := ends_modify.mp hmodify
        rfl
    · intro _ s₂ _
      exact callResult_reads callee asStatement slots.returns s₂

theorem unknownCall_reads {names : List String} (hargs : Reads table argKinds names) :
    Reads table (unknownCall callee line asStatement argKinds) names := by
  apply hargs.after
  intro _
  apply Reads.getScope_bind
  intro scope
  apply Reads.check
  apply Reads.ite
  · exact (Reads.emit _).before fun _ => .pure _
  · exact .fail

theorem ruleResult_reads (rule : CallRule) (kinds : List Kind) :
    Reads table (ruleResult rule callee line asStatement kinds) [] := by
  unfold ruleResult
  split
  · exact .ite (.pure _) .fail
  · exact .pure _
  · split
    · exact .pure _
    · exact .fail

theorem ruleArguments_reads {rule : CallRule} (hrule : rule.Sound)
    (harity : ∀ arity, rule.arity = some arity → arity = args.length)
    (hargs : Reads env.table argKinds (Expr.varsAll args)) :
    Reads env.table (ruleArguments env rule line args argKinds) (Expr.varsAll args) := by
  unfold ruleArguments
  split
  · exact .fail
  · next hform =>
    have hlength := harity 1 (hrule.listLength hform).1
    split
    · exact .pure _
    · next list rest =>
      obtain rfl : rest = [] := by simpa using hlength
      exact (elementKind_reads list).after fun _ => .pure _
    · exact hargs.after fun _ => .fail
  · exact hargs

theorem checkArity_reads (callee : String) (count : Nat) (arity : Option Nat) :
    Reads table (checkArity callee line count arity) [] := by
  cases arity with
  | none => exact .pure ()
  | some arity => exact .ite .fail (.pure ())

theorem arity_of_checkArity {count arity : Nat} {s s' : State}
    (h : Ends (checkArity callee line count (some arity)) s (.ok ()) s') : arity = count := by
  rcases ends_ite.mp h with ⟨_, hfail⟩ | ⟨heq, _⟩
  · exact absurd hfail (by simp [mismatch])
  · exact not_ne_iff.mp heq

theorem runtimeCall_reads {rule : CallRule} (hrule : rule.Sound)
    (hargs : Reads env.table argKinds (Expr.varsAll args)) :
    Reads env.table (runtimeCall env rule callee line asStatement args argKinds)
      (Expr.varsAll args) := by
  intro s
  apply (checkArity_reads callee args.length rule.arity s).bind
  intro _ s₁ hends
  have harity : ∀ arity, rule.arity = some arity → arity = args.length := by
    intro arity heq
    rw [heq] at hends
    exact arity_of_checkArity hends
  apply (ruleArguments_reads hrule harity hargs).after
  intro kinds
  exact .check (ruleResult_reads rule kinds)

theorem callKind_reads (htable : env.table.Sound)
    (hargs : Reads env.table argKinds (Expr.varsAll args)) :
    Reads env.table (callKind env callee line asStatement args argKinds) (Expr.varsAll args) := by
  apply Reads.get_bind
  intro s
  apply Reads.ite
  · apply Reads.getScope_bind
    intro scope
    exact .check (userCall_reads hargs)
  · split
    · exact unknownCall_reads hargs
    · next rule hrule => exact runtimeCall_reads (htable.call hrule) hargs

mutual

/-- An expression that has a kind has been read, whatever is known of the functions. -/
theorem exprKind_reads (htable : env.table.Sound) (e : Expr) :
    Reads env.table (exprKind env line e) e.vars := by
  cases e with
  | literal value => exact .pure _
  | name id =>
    apply (resolve_reads id).after
    intro kind
    exact .check (.pure _)
  | unary sign operand =>
    apply (exprKind_reads htable operand).after
    intro kind
    exact .check (.pure _)
  | binary left op right =>
    apply (exprKind_reads htable left).bind
    intro leftKind
    apply (exprKind_reads htable right).after
    intro rightKind
    split
    · exact .pure _
    · exact .fail
  | call callee args => exact callKind_reads htable (exprKinds_reads htable args)
  | index list position =>
    apply (elementKind_reads list).bind
    intro element
    apply (exprKind_reads htable position).after
    intro kind
    exact .check (.pure _)
  | list items => exact .fail

theorem exprKinds_reads (htable : env.table.Sound) (es : List Expr) :
    Reads env.table (exprKinds env line es) (Expr.varsAll es) := by
  cases es with
  | nil => exact .pure _
  | cons e es =>
    apply (exprKind_reads htable e).bind
    intro kind
    exact (exprKinds_reads htable es).after fun _ => .pure _

end

end Expressions

section Headers

variable {env : Env} {line : Nat}

theorem itemsKind_reads (htable : env.table.Sound) (first : Option Kind) (items : List Expr) :
    Reads env.table (itemsKind env line first items) (Expr.varsAll items) := by
  induction items generalizing first with
  | nil =>
    cases first with
    | none => exact .fail
    | some kind => exact .pure kind
  | cons item items ih =>
    unfold itemsKind
    apply Reads.check
    apply (exprKind_reads htable item).bind
    intro kind
    cases first with
    | none => exact ih _
    | some expected => exact .check (ih _)

theorem assignedKind_reads (htable : env.table.Sound) (value : Expr) :
    Reads env.table (assignedKind env line value) value.vars := by
  unfold assignedKind
  split
  · next items =>
    apply Reads.get_bind
    intro s
    apply Reads.check
    exact (itemsKind_reads htable none items).after fun _ => .pure _
  · exact exprKind_reads htable value

theorem checkCondition_reads (htable : env.table.Sound) (condition : Expr) :
    Reads env.table (checkCondition env line condition) condition.vars :=
  (exprKind_reads htable condition).after fun _ => .ite .fail (.pure _)

theorem checkBound_reads (htable : env.table.Sound) (bound : Expr) :
    Reads env.table (checkBound env line bound) bound.vars :=
  (exprKind_reads htable bound).after fun _ => .ite .fail (.pure _)

theorem checkBounds_reads (htable : env.table.Sound) (bounds : Bounds) :
    Reads env.table (checkBounds env line bounds) (Expr.varsAll bounds.exprs) := by
  obtain ⟨start, stop, step⟩ := bounds
  have hstop : Reads env.table (checkBound env line stop) stop.vars := checkBound_reads htable stop
  cases start with
  | none =>
    show Reads env.table (checkBound env line stop) _
    simpa [Bounds.exprs, Expr.varsAll] using hstop
  | some start =>
    show Reads env.table (checkBound env line start >>= fun _ => checkBound env line stop) _
    simpa [Bounds.exprs, Expr.varsAll] using (checkBound_reads htable start).bind fun _ => hstop

theorem checkStatement_reads (htable : env.table.Sound) (value : Expr) :
    Reads env.table (checkStatement env line value) value.vars := by
  unfold checkStatement
  split
  · next callee args =>
    exact (callKind_reads htable (exprKinds_reads htable args)).after fun _ => .pure _
  · exact (exprKind_reads htable value).after fun _ => .pure _

theorem givenKind_reads (htable : env.table.Sound) (value : Option Expr) :
    Reads env.table (givenKind env line value) (Expr.varsAll value.toList) := by
  cases value with
  | none => exact .pure _
  | some value =>
    show Reads env.table (exprKind env line value) _
    simpa [Expr.varsAll] using exprKind_reads htable value

end Headers

/-- A visit and a reading of the same expression in which names mean the same. -/
structure SameMeaning (visit : Visit) (reading : Reading) : Prop where
  expr : visit.expr = reading.expr
  meaning : visit.state.frame.scope.meaning = reading.scope.meaning

section Statements

variable {env : Env} {s s' : State}

theorem sameMeaning_of_readAll {e : Expr} {fr : Frame} {names : List String}
    (h : s.frame = fr.readAll names) : SameMeaning ⟨s, e⟩ ⟨fr.scope, e⟩ := by
  constructor
  · rfl
  · funext x
    rw [h]
    exact Scope.meaning_readAll ..

theorem sameMeaning_of_frame {e : Expr} {fr : Frame} (h : s.frame = fr) :
    SameMeaning ⟨s, e⟩ ⟨fr.scope, e⟩ := by
  apply sameMeaning_of_readAll
  rwa [Frame.readAll_nil]

/-- The run from `s` to `s'` that makes `found` of a statement binds its names by the rules, and
visits what the rules read. -/
def Walks (env : Env) (s : State) (stmt found : Stmt) (s' : State) : Prop :=
  ∃ readings, Binds env.table s.frame stmt found s'.frame readings ∧
    List.Forall₂ SameMeaning (visits env s stmt) readings

def WalksAll (env : Env) (s : State) (stmts found : List Stmt) (s' : State) : Prop :=
  ∃ readings, BindsAll env.table s.frame stmts found s'.frame readings ∧
    List.Forall₂ SameMeaning (visitsAll env s stmts) readings

theorem assignName_walks (htable : env.table.Sound) {line : Nat} {id : String} {value : Expr}
    {declared : Option Kind} (b : Binding) {binding : Binding}
    (h : Ends (assignName env id value declared line) s (.ok binding) s') :
    Walks env s (.assign line (.name id) value declared b)
      (.assign line (.name id) value declared binding) s' := by
  simp only [Walks, visits, h.after_eq]
  obtain ⟨_, s₁, hcheck, hrest⟩ := ends_bind_ok.mp h
  have hassignable : Runs NoReason (checkAssignable env id line) s _ := checkAssignable_runs
  obtain ⟨rfl, hunknown, hvar⟩ := hassignable.ok hcheck
  have hname : s₁.frame.Writable env.table id := ⟨hunknown, hvar⟩
  obtain ⟨kind, s₂, hvalue, hrest⟩ := ends_bind_ok.mp hrest
  have hframe : s₂.frame = s₁.frame.read value := (assignedKind_reads htable value).frame hvalue
  obtain ⟨existing, s₃, hbound, hrest⟩ := ends_bind_ok.mp hrest
  have hboundKind : Runs NoReason (boundKind id line .assignedAfterRead) s₂ _ := boundKind_runs
  obtain ⟨rfl, hexisting, hfree⟩ := hboundKind.ok hbound
  rw [hframe] at hexisting hfree
  have hfirst : SameMeaning ⟨s₁, value⟩ ⟨s₁.frame.scope, value⟩ := ⟨rfl, rfl⟩
  cases existing with
  | some existing =>
    obtain ⟨scope, s₄, hscope, hrest⟩ := ends_bind_ok.mp hrest
    obtain ⟨heq, rfl⟩ := ends_getScope.mp hscope
    cases heq
    rcases ends_ite.mp hrest with ⟨_, hfail⟩ | ⟨hbody, hrest⟩
    · exact absurd hfail (by simp [unsupported])
    · have hreassign : Runs NoReason (reassign id existing kind declared line) s₄ _ := reassign_runs
      obtain ⟨rfl, rfl, rfl, hlist, _⟩ := hreassign.ok hrest
      rw [hframe] at hbody ⊢
      refine ⟨_, .again hname ?_ ((Scope.bound?_readAll ..).symm.trans hexisting.symm) hlist,
        .cons hfirst (.cons (sameMeaning_of_frame hframe) .nil)⟩
      simpa [Frame.read, Frame.readAll] using hbody
  | none =>
    have hdeclare : Runs NoReason (declare id kind declared line) s₃ _ := declare_runs
    obtain ⟨_, target, _, hcase⟩ := hdeclare.ok hrest
    rw [hframe] at hcase
    rcases hcase with ⟨hdepth, rfl, hlast⟩ | ⟨hdepth, rfl, hlast⟩
    · rw [hlast]
      exact ⟨_, .first target hname (hfree rfl) hdepth,
        .cons hfirst (.cons (sameMeaning_of_frame hlast) .nil)⟩
    · rw [hlast]
      exact ⟨_, .hoist target hname (hfree rfl) hdepth,
        .cons hfirst (.cons (sameMeaning_of_frame hlast) .nil)⟩

theorem assignElement_walks (htable : env.table.Sound) {line : Nat} {list : String}
    {position value : Expr} (declared : Option Kind) (b : Binding) {binding : Binding}
    (h : Ends (assignElement env list position value line) s (.ok binding) s') :
    Walks env s (.assign line (.element list position) value declared b)
      (.assign line (.element list position) value declared binding) s' := by
  obtain ⟨scope, s₀, hscope, hrest⟩ := ends_bind_ok.mp h
  obtain ⟨heq, rfl⟩ := ends_getScope.mp hscope
  cases heq
  rcases ends_ite.mp hrest with ⟨_, hfail⟩ | ⟨hbody, hrest⟩
  · obtain ⟨_, _, hfail, _⟩ := ends_bind_ok.mp hfail
    exact absurd hfail (by simp [unsupported])
  · obtain ⟨element, s₁, helement, hrest⟩ := ends_bind_ok.mp hrest
    obtain ⟨index, s₂, hindex, hrest⟩ := ends_bind_ok.mp hrest
    have hread : Ends (do let _ ← elementKind env list line; exprKind env line position) s₀
        (.ok index) s₂ := ends_bind_ok.mpr ⟨element, s₁, helement, hindex⟩
    have hposition : s₂.frame = s₀.frame.read (.index list position) :=
      ((elementKind_reads list).bind fun _ => exprKind_reads htable position).frame hread
    have hvalue : Reads env.table (do
        let kind ← exprKind env line value
        if !element.accepts kind then
          mismatch line (.elements list) (.kind element) (.kind kind)
        return Binding.reassign) value.vars :=
      (exprKind_reads htable value).after fun _ => .check (.pure _)
    rcases ends_ite.mp hrest with ⟨_, hfail⟩ | ⟨_, hrest⟩
    · obtain ⟨_, _, hfail, _⟩ := ends_bind_ok.mp hfail
      exact absurd hfail (by simp [mismatch])
    · obtain rfl : binding = .reassign := by
        obtain ⟨_, _, _, hrest⟩ := ends_bind_ok.mp hrest
        rcases ends_ite.mp hrest with ⟨_, hfail⟩ | ⟨_, hrest⟩
        · obtain ⟨_, _, hfail, _⟩ := ends_bind_ok.mp hfail
          exact absurd hfail (by simp [mismatch])
        · exact Except.ok.inj (ends_pure.mp hrest).1
      have hlast : s'.frame = (s₀.frame.read (.index list position)).read value := by
        rw [hvalue.frame hrest, hposition]
        rfl
      simp only [Walks, visits, hread.after_eq, hlast]
      exact ⟨_, .element (by simpa using hbody),
        .cons ⟨rfl, rfl⟩ (.cons (sameMeaning_of_frame hposition) .nil)⟩

theorem boundVisits_sameMeaning (htable : env.table.Sound) {line : Nat} {bounds : Bounds}
    (h : Ends (checkBounds env line bounds) s (.ok ()) s') :
    List.Forall₂ SameMeaning (boundVisits env line bounds s)
      (bounds.exprs.map (⟨s.frame.scope, ·⟩)) := by
  obtain ⟨start, stop, step⟩ := bounds
  cases start with
  | none => exact .cons ⟨rfl, rfl⟩ .nil
  | some start =>
    obtain ⟨_, s₁, hstart, _⟩ := ends_bind_ok.mp h
    simp only [boundVisits, hstart.after_eq]
    have hframe := (checkBound_reads htable start).frame hstart
    exact .cons ⟨rfl, rfl⟩ (.cons (sameMeaning_of_readAll hframe) .nil)

theorem inferReturn_frame (htable : env.table.Sound) {line : Nat} {value : Option Expr}
    (h : Ends (inferReturn env value line) s (.ok ()) s') : ∃ after,
      KeepsReturned s.frame.returned after ∧
      s'.frame = { s.frame.readAll (Expr.varsAll value.toList) with returned := after } := by
  obtain ⟨kind, s₁, hkind, hrest⟩ := ends_bind_ok.mp h
  have hframe := (givenKind_reads htable value).frame hkind
  split at hrest
  · exact absurd hrest (by simp [internal])
  · next owner _ =>
    have hreturned : Runs NoReason (checkReturned owner kind line) s₁ _ := checkReturned_runs kind
    rcases ends_ite.mp hrest with ⟨_, hfail⟩ | ⟨_, hrest⟩
    · obtain ⟨_, _, hfail, _⟩ := ends_bind_ok.mp hfail
      exact absurd hfail (by simp [unsupported])
    · obtain ⟨after, hafter, rfl⟩ := hreturned.ok hrest
      rw [hframe] at hafter
      exact ⟨after, hafter.keeps, by rw [← hframe]⟩

/-- A loop walks if its body does. -/
theorem inferLoop_walks (htable : env.table.Sound) {line : Nat} {var : String} {bounds : Bounds}
    {b : Binding} {body : List Stmt} {found : Stmt}
    (hblock : ∀ {s s' body'}, Ends (inferBlock env body) s (.ok body') s' →
      WalksAll env s body body' s')
    (h : Ends (inferStmt env (.loop line var bounds b body)) s (.ok found) s') :
    Walks env s (.loop line var bounds b body) found s' := by
  simp only [inferStmt, ends_bind_ok] at h
  obtain ⟨_, s₁, hbounds, binding, s₂, hbind, _, s₃, henter, _, s₄, hloop, body', s₅, hbody, _, s₆,
    hleave, _, s₇, hleave', _, s₈, hrelease, hrest⟩ := h
  obtain ⟨heq, rfl⟩ := ends_pure.mp hrest
  cases heq
  have hbound : Ends (do checkBounds env line bounds; bindLoopVar var line) s (.ok binding) s₂ :=
    ends_bind_ok.mpr ⟨_, s₁, hbounds, hbind⟩
  have hinner : Ends (do enterBlock; enterLoop var) s₂ (.ok ()) s₄ :=
    ends_bind_ok.mpr ⟨_, s₃, henter, hloop⟩
  obtain ⟨_, rfl⟩ := ends_modifyFrame.mp henter
  obtain ⟨_, rfl⟩ := ends_modifyFrame.mp hloop
  obtain ⟨_, rfl⟩ := ends_modifyFrame.mp hleave
  obtain ⟨_, rfl⟩ := ends_modifyFrame.mp hleave'
  have hfirst := boundVisits_sameMeaning htable hbounds
  have hframe := (checkBounds_reads htable bounds).frame hbounds
  have hknown := (checkBounds_reads htable bounds s).known hbounds
  obtain ⟨r, hbinds, hsees⟩ := hblock hbody
  have hruns : Runs NoReason (bindLoopVar var line) s₁ _ := bindLoopVar_runs var
  obtain ⟨hloopVars, hcase⟩ := hruns.ok hbind
  have hvar : var ∉ s.frame.loopVars := by
    rw [hframe] at hloopVars
    exact hloopVars
  simp only [Walks, visits, hbound.after_eq, hinner.after_eq]
  rcases hcase with ⟨hbound?, rfl, rfl⟩ | ⟨hfree, rfl, rfl⟩
  · obtain ⟨_, rfl⟩ := ends_pure.mp hrelease
    rw [hframe] at hbound?
    refine ⟨_, .loopAgain hknown hvar ((Scope.bound?_readAll ..).symm.trans hbound?) ?_,
      List.rel_append hfirst (.cons (sameMeaning_of_frame hframe) hsees)⟩
    rw [← hframe]
    exact hbinds
  · have hremove : Ends (modifyScope (·.remove var)) _ _ _ := hrelease
    obtain ⟨_, rfl⟩ := ends_modifyScope.mp hremove
    rw [hframe] at hfree
    have hrule : Binds env.table s.frame (.loop line var bounds b body)
        (.loop line var bounds (.declare .int) body') (s₅.frame.afterLoop var (.declare .int)) _ :=
      .loopFirst hknown hvar hfree (by rw [← hframe]; exact hbinds)
    exact ⟨_, hrule,
      List.rel_append hfirst (.cons (sameMeaning_of_frame (by rw [hframe])) hsees)⟩

mutual

/-- A run that accepts a statement binds its names by the rules of binding. -/
theorem inferStmt_walks (htable : env.table.Sound) (stmt : Stmt) {s s' : State} {found : Stmt}
    (h : Ends (inferStmt env stmt) s (.ok found) s') : Walks env s stmt found s' := by
  cases stmt with
  | function =>
    unfold inferStmt at h
    exact absurd h (by simp [internal])
  | assign line target value declared b =>
    simp only [inferStmt, ends_bind_ok] at h
    obtain ⟨binding, s₁, hassign, hrest⟩ := h
    obtain ⟨heq, rfl⟩ := ends_pure.mp hrest
    cases heq
    cases target with
    | name id => exact assignName_walks htable b hassign
    | element list position => exact assignElement_walks htable declared b hassign
  | conditional line condition thenBody elseBody =>
    simp only [inferStmt, ends_bind_ok] at h
    obtain ⟨_, s₁, hcondition, _, s₂, henter, thenBody', s₃, hthen, elseBody', s₄, helse, _, s₅,
      hleave, hrest⟩ := h
    obtain ⟨heq, rfl⟩ := ends_pure.mp hrest
    cases heq
    obtain ⟨_, rfl⟩ := ends_modifyFrame.mp hleave
    have hinner : Ends (do checkCondition env line condition; enterBlock) s (.ok ()) s₂ :=
      ends_bind_ok.mpr ⟨_, s₁, hcondition, henter⟩
    obtain ⟨_, rfl⟩ := ends_modifyFrame.mp henter
    obtain ⟨r₁, hbinds₁, hsees₁⟩ := inferBlock_walks htable thenBody hthen
    obtain ⟨r₂, hbinds₂, hsees₂⟩ := inferBlock_walks htable elseBody helse
    have hframe : s₁.frame = s.frame.read condition :=
      (checkCondition_reads htable condition).frame hcondition
    simp only [Walks, visits, hinner.after_eq, hthen.after_eq]
    rw [hframe] at hbinds₁
    exact ⟨_, .conditional hbinds₁ hbinds₂, .cons ⟨rfl, rfl⟩ (List.rel_append hsees₁ hsees₂)⟩
  | loop line var bounds b body => exact inferLoop_walks htable (inferBlock_walks htable body) h
  | expr line value =>
    simp only [inferStmt, ends_bind_ok] at h
    obtain ⟨_, s₁, hvalue, hrest⟩ := h
    obtain ⟨heq, rfl⟩ := ends_pure.mp hrest
    cases heq
    have hframe : s'.frame = s.frame.read value := (checkStatement_reads htable value).frame hvalue
    simp only [Walks, visits, hframe]
    exact ⟨_, .expr, .cons ⟨rfl, rfl⟩ .nil⟩
  | give line value =>
    simp only [inferStmt, ends_bind_ok] at h
    obtain ⟨_, s₁, hreturn, hrest⟩ := h
    obtain ⟨heq, rfl⟩ := ends_pure.mp hrest
    cases heq
    obtain ⟨after, hafter, hframe⟩ := inferReturn_frame htable hreturn
    simp only [Walks, hframe]
    cases value with
    | none => exact ⟨_, .bare hafter, .nil⟩
    | some value =>
      rw [Option.toList_some, Expr.varsAll, Expr.varsAll, List.append_nil]
      exact ⟨_, .give hafter, .cons ⟨rfl, rfl⟩ .nil⟩
  | global line names =>
    simp only [inferStmt, ends_bind_ok] at h
    obtain ⟨_, s₁, hshare, hrest⟩ := h
    obtain ⟨heq, rfl⟩ := ends_pure.mp hrest
    cases heq
    have hruns : Runs NoReason (shareGlobals line names) s _ := shareGlobals_runs names s
    obtain ⟨_, hframe, hnames⟩ := hruns.ok hshare
    simp only [Walks, hframe]
    exact ⟨_, .share hnames, .nil⟩
  | comment | blank | pass | stop | skip =>
    unfold inferStmt at h
    obtain ⟨heq, rfl⟩ := ends_pure.mp h
    cases heq
    exact ⟨_, .inert rfl, .nil⟩

theorem inferBlock_walks (htable : env.table.Sound) (stmts : List Stmt) {s s' : State}
    {found : List Stmt} (h : Ends (inferBlock env stmts) s (.ok found) s') :
    WalksAll env s stmts found s' := by
  cases stmts with
  | nil =>
    unfold inferBlock at h
    obtain ⟨heq, rfl⟩ := ends_pure.mp h
    cases heq
    exact ⟨_, .nil, .nil⟩
  | cons stmt stmts =>
    simp only [inferBlock, ends_bind_ok] at h
    obtain ⟨stmt', s₁, hhead, stmts', s₂, htail, hrest⟩ := h
    obtain ⟨heq, rfl⟩ := ends_pure.mp hrest
    cases heq
    obtain ⟨r₁, hbinds₁, hsees₁⟩ := inferStmt_walks htable stmt hhead
    obtain ⟨r₂, hbinds₂, hsees₂⟩ := inferBlock_walks htable stmts htail
    simp only [WalksAll, visitsAll, hhead.after_eq]
    exact ⟨_, .cons hbinds₁ hbinds₂, List.rel_append hsees₁ hsees₂⟩

end

theorem releaseLoopVar_keeps (var : String) (binding : Binding) :
    Keeps (releaseLoopVar var binding) := by
  cases binding with
  | declare kind =>
    show Keeps (modifyScope (·.remove var))
    exact .modifyFrame _
  | reassign | unresolved => exact .pure ()

theorem assignTarget_keeps (htable : env.table.Sound) (target : Target) (value : Expr)
    (declared : Option Kind) (line : Nat) :
    Keeps (assignTarget env target value declared line) := by
  cases target with
  | name id =>
    apply (Keeps.of_runs fun _ => checkAssignable_runs).bind
    intro _
    apply (assignedKind_reads htable value).keeps.bind
    intro kind
    apply (Keeps.of_runs fun _ => boundKind_runs).bind
    intro existing
    cases existing with
    | some existing =>
      apply Keeps.getScope_bind
      intro scope
      exact .ite .fail (.of_runs fun _ => reassign_runs)
    | none => exact .of_runs fun _ => declare_runs
  | element list position =>
    apply Keeps.getScope_bind
    intro scope
    apply Keeps.check
    apply (elementKind_reads list).keeps.bind
    intro element
    apply (exprKind_reads htable position).keeps.bind
    intro index
    apply Keeps.check
    apply (exprKind_reads htable value).keeps.bind
    intro kind
    exact .check (.pure _)

theorem inferReturn_keeps (htable : env.table.Sound) (value : Option Expr) (line : Nat) :
    Keeps (inferReturn env value line) := by
  apply (givenKind_reads htable value).keeps.bind
  intro kind
  split
  · exact .fail
  · exact .check (.of_runs fun _ => checkReturned_runs kind)

mutual

/-- A statement leaves the parameters of the functions as they are, accepted or not. -/
theorem inferStmt_keeps (htable : env.table.Sound) (stmt : Stmt) : Keeps (inferStmt env stmt) := by
  cases stmt with
  | function =>
    unfold inferStmt
    exact .fail
  | assign line target value declared b =>
    unfold inferStmt
    exact (assignTarget_keeps htable target value declared line).bind fun _ => .pure _
  | conditional line condition thenBody elseBody =>
    unfold inferStmt
    apply (checkCondition_reads htable condition).keeps.bind
    intro _
    apply (Keeps.modifyFrame _).bind
    intro _
    apply (inferBlock_keeps htable thenBody).bind
    intro thenBody'
    apply (inferBlock_keeps htable elseBody).bind
    intro elseBody'
    exact (Keeps.modifyFrame _).bind fun _ => .pure _
  | loop line var bounds b body =>
    unfold inferStmt
    apply (checkBounds_reads htable bounds).keeps.bind
    intro _
    apply (Keeps.of_runs fun _ => bindLoopVar_runs var).bind
    intro binding
    apply (Keeps.modifyFrame _).bind
    intro _
    apply (Keeps.modifyFrame _).bind
    intro _
    apply (inferBlock_keeps htable body).bind
    intro body'
    apply (Keeps.modifyFrame _).bind
    intro _
    apply (Keeps.modifyFrame _).bind
    intro _
    exact (releaseLoopVar_keeps var binding).bind fun _ => .pure _
  | expr line value =>
    unfold inferStmt
    exact (checkStatement_reads htable value).keeps.bind fun _ => .pure _
  | give line value =>
    unfold inferStmt
    exact (inferReturn_keeps htable value line).bind fun _ => .pure _
  | global line names =>
    unfold inferStmt
    exact (Keeps.of_runs (shareGlobals_runs names)).bind fun _ => .pure _
  | comment | blank | pass | stop | skip =>
    unfold inferStmt
    exact .pure _

theorem inferBlock_keeps (htable : env.table.Sound) (stmts : List Stmt) :
    Keeps (inferBlock env stmts) := by
  cases stmts with
  | nil =>
    unfold inferBlock
    exact .pure _
  | cons stmt stmts =>
    unfold inferBlock
    apply (inferStmt_keeps htable stmt).bind
    intro stmt'
    exact (inferBlock_keeps htable stmts).bind fun _ => .pure _

end

end Statements

end Sketchwright.Inference
