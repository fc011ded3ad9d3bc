import Sketchwright.Proofs.Refilling

/-! Inference in place. An attempt may write what it finds straight into the program, where an
attempt that gives up leaves it half written and the next one starts from that. The program that
comes out is the same: the attempt that finishes a function writes all of it anew. -/

namespace Sketchwright.Inference

/-- An attempt that writes in place. When it ends early, what it was writing
stands as far as it came. -/
abbrev Write (β α : Type) := ExceptT (Stall × β) (StateM State) α

section Writes

variable {α β γ : Type}

/-- An attempt that writes nothing: it leaves what stood there. -/
def leaving (left : β) (x : Infer α) : Write β α := ExceptT.adapt (·, left) x

/-- An attempt at a part, which stands within a whole. -/
def within (whole : β → γ) (x : Write β α) : Write γ α :=
  ExceptT.adapt (fun (stall, left) => (stall, whole left)) x

/-- The attempt apart from what it writes. -/
def Write.forget (x : Write β α) : Infer α := ExceptT.adapt Prod.fst x

/-- How an attempt that writes in place ends. -/
def Write.end (x : Write β α) (s : State) : Except (Stall × β) α × State := x.run s

theorem end_leaving (left : β) (x : Infer α) (s : State) :
    (leaving left x).end s = ((endOf x s).1.mapError (·, left), (endOf x s).2) := rfl

theorem end_within (whole : β → γ) (x : Write β α) (s : State) :
    (within whole x).end s =
      ((x.end s).1.mapError fun (stall, left) => (stall, whole left), (x.end s).2) := rfl

theorem endOf_forget (x : Write β α) (s : State) :
    endOf x.forget s = ((x.end s).1.mapError Prod.fst, (x.end s).2) := rfl

theorem end_bind (x : Write β α) (f : α → Write β γ) (s : State) : (x >>= f).end s =
    match x.end s with
    | (.ok a, s₁) => (f a).end s₁
    | (.error e, s₁) => (.error e, s₁) := by
  show (ExceptT.bindCont f (x.end s).1) (x.end s).2 = _
  rcases x.end s with ⟨_ | _, _⟩ <;> rfl

@[simp] theorem forget_leaving (left : β) (x : Infer α) : (leaving left x).forget = x := by
  funext s
  show endOf (leaving left x).forget s = endOf x s
  rw [endOf_forget, end_leaving]
  rcases endOf x s with ⟨_ | _, _⟩ <;> rfl

@[simp] theorem forget_within (whole : β → γ) (x : Write β α) :
    (within whole x).forget = x.forget := by
  funext s
  show endOf (within whole x).forget s = endOf x.forget s
  rw [endOf_forget, endOf_forget, end_within]
  rcases x.end s with ⟨_ | _, _⟩ <;> rfl

@[simp] theorem forget_pure (a : α) : (pure a : Write β α).forget = pure a := rfl

@[simp] theorem forget_bind (x : Write β α) (f : α → Write β γ) :
    (x >>= f).forget = x.forget >>= fun a => (f a).forget := by
  funext s
  show endOf (x >>= f).forget s = endOf (x.forget >>= fun a => (f a).forget) s
  rw [endOf_forget, end_bind, endOf_bind, endOf_forget]
  rcases x.end s with ⟨_ | _, _⟩ <;> rfl

@[simp] theorem forget_map (f : α → γ) (x : Write β α) : (f <$> x).forget = f <$> x.forget := by
  rw [← bind_pure_comp, forget_bind, ← bind_pure_comp]
  simp

/-- However the attempt ends, this holds of its value or of what it leaves. -/
def Write.Yields (x : Write β α) (value : α → Prop) (left : β → Prop) : Prop :=
  ∀ s, match (x.end s).1 with
    | .ok a => value a
    | .error (_, b) => left b

theorem yields_pure {a : α} {value : α → Prop} {left : β → Prop} (h : value a) :
    (pure a : Write β α).Yields value left := fun _ => h

theorem yields_leaving {b : β} {x : Infer α} {left : β → Prop} (h : left b) :
    (leaving b x).Yields (fun _ => True) left := by
  intro s
  rw [end_leaving]
  rcases endOf x s with ⟨_ | _, _⟩
  · exact h
  · trivial

theorem yields_throw {b : β} {stall : Stall} {value : α → Prop} {left : β → Prop} (h : left b) :
    (leaving b (throw stall : Infer α)).Yields value left := fun _ => h

theorem Write.Yields.within {whole : β → γ} {x : Write β α} {value : α → Prop} {left : β → Prop}
    {left' : γ → Prop} (h : x.Yields value left) (hwhole : ∀ b, left b → left' (whole b)) :
    (within whole x).Yields value left' := by
  intro s
  have hx := h s
  rw [end_within]
  rcases hend : x.end s with ⟨⟨_, b⟩ | _, _⟩
  · rw [hend] at hx
    exact hwhole b hx
  · rw [hend] at hx
    exact hx

theorem Write.Yields.bind {x : Write β α} {f : α → Write β γ} {value : α → Prop} {value' : γ → Prop}
    {left : β → Prop} (h : x.Yields value left) (hf : ∀ a, value a → (f a).Yields value' left) :
    (x >>= f).Yields value' left := by
  intro s
  have hx := h s
  rw [end_bind]
  rcases hend : x.end s with ⟨_ | a, s₁⟩
  · rw [hend] at hx
    exact hx
  · rw [hend] at hx
    exact hf a hx s₁

end Writes

mutual

/-- An attempt at a statement. An assignment gets its binding when its value is read,
a loop after its body. -/
def writeStmt (env : Env) : Stmt → Write Stmt Stmt
  | .assign line target value declared old => do
    let binding ← leaving (.assign line target value declared old)
      (assignTarget env target value declared line)
    return .assign line target value declared binding
  | .conditional line condition thenBody elseBody => do
    leaving (.conditional line condition thenBody elseBody) do
      checkCondition env line condition
      enterBlock
    let thenBody ← within (fun left => .conditional line condition left elseBody)
      (writeBlock env thenBody)
    let elseBody ← within (fun left => .conditional line condition thenBody left)
      (writeBlock env elseBody)
    leaving (.conditional line condition thenBody elseBody) leaveBlock
    return .conditional line condition thenBody elseBody
  | .loop line var bounds old body => do
    let binding ← leaving (.loop line var bounds old body) do
      checkBounds env line bounds
      let binding ← bindLoopVar var line
      enterBlock
      enterLoop var
      return binding
    let body ← within (fun left => .loop line var bounds old left) (writeBlock env body)
    leaving (.loop line var bounds old body) do
      leaveLoop
      leaveBlock
      releaseLoopVar var binding
    return .loop line var bounds binding body
  | stmt => do
    let _ ← leaving stmt (inferStmt env stmt)
    return stmt

def writeBlock (env : Env) : List Stmt → Write (List Stmt) (List Stmt)
  | [] => return []
  | stmt :: stmts => do
    let stmt ← within (fun left => left :: stmts) (writeStmt env stmt)
    let stmts ← within (fun left => stmt :: left) (writeBlock env stmts)
    return stmt :: stmts

end

/-- One attempt at a function, the signature and hoisted names of which are written at its end. -/
def writeFunction (table : CallTable) (globals : Variables) (task : Task)
    (signature : Option Signature) (hoisted : List (String × Kind)) : Write Stmt Stmt := do
  let name := task.head.name
  let whole := fun body => Stmt.function task.line task.head signature hoisted body
  match (← leaving (whole task.body) get).functions.find? name with
  | none => leaving (whole task.body) (internal task.line (.noSignatureFor name))
  | some slots =>
    match slots.openParam? with
    | some param =>
      leaving (whole task.body)
        (throw (.pending (.unsupported slots.line (.unknownParameterKind param name))))
    | none =>
      let params := slots.paramKinds
      leaving (whole task.body) (modifyFrame fun _ => .ofScope (bodyScope globals task params))
      let body ← within whole
        (writeBlock ⟨table, some ⟨name, task.head.isEntry, slots.returns⟩⟩ task.body)
      let (returns, hoisted) ← leaving (whole body) do
        let frame := (← get).frame
        let returns := (slots.returns <|> frame.returned).getD .void
        modify fun s =>
          { s with
            functions :=
              s.functions.update name fun slots => { slots with returns := some returns } }
        emit (.signature name params returns frame.hoisted.length)
        return (returns, frame.hoisted)
      return .function task.line task.head (some ⟨params, returns⟩) hoisted body

section Attempts

mutual

theorem forget_writeStmt (env : Env) : ∀ stmt, (writeStmt env stmt).forget = inferStmt env stmt
  | .assign .. => by simp [writeStmt, inferStmt]
  | .conditional line condition thenBody elseBody => by
    simp [writeStmt, inferStmt, forget_writeBlock env thenBody, forget_writeBlock env elseBody]
  | .loop line var bounds old body => by simp [writeStmt, inferStmt, forget_writeBlock env body]
  | .function .. => by
    simp only [writeStmt, inferStmt, forget_bind, forget_leaving]
    rfl
  | .expr .. | .give .. | .global .. | .comment .. | .blank _ | .pass _ | .stop _ | .skip _ => by
    simp [writeStmt, inferStmt]

theorem forget_writeBlock (env : Env) :
    ∀ stmts, (writeBlock env stmts).forget = inferBlock env stmts
  | [] => by simp [writeBlock, inferBlock]
  | stmt :: stmts => by
    simp [writeBlock, inferBlock, forget_writeStmt env stmt, forget_writeBlock env stmts]

end

theorem forget_writeFunction (table : CallTable) (globals : Variables) (task : Task)
    (signature : Option Signature) (hoisted : List (String × Kind)) :
    (writeFunction table globals task signature hoisted).forget =
      inferFunction table globals task := by
  unfold writeFunction inferFunction
  rw [forget_bind, forget_leaving]
  refine congrArg _ (funext fun s => ?_)
  cases s.functions.find? task.head.name with
  | none => exact forget_leaving _ _
  | some slots =>
    dsimp only
    cases slots.openParam? with
    | some param => exact forget_leaving _ _
    | none => simp [forget_writeBlock]

mutual

/-- Of a statement only slots are written. -/
theorem writeStmt_yields (env : Env) : ∀ stmt : Stmt,
    (writeStmt env stmt).Yields (·.bare = stmt.bare) (·.bare = stmt.bare)
  | .assign .. => by
    unfold writeStmt
    refine .bind (yields_leaving ?_) fun _ _ => yields_pure ?_
    · rfl
    · rfl
  | .conditional line condition thenBody elseBody => by
    have hbare : ∀ {a b}, bareAll a = bareAll thenBody → bareAll b = bareAll elseBody →
        (Stmt.conditional line condition a b).bare =
          (Stmt.conditional line condition thenBody elseBody).bare := by
      intro a b ha hb
      rw [Stmt.bare, Stmt.bare, ha, hb]
    unfold writeStmt
    refine .bind (yields_leaving (hbare rfl rfl)) fun _ _ => ?_
    refine .bind ((writeBlock_yields env thenBody).within fun left hleft => hbare hleft rfl)
      fun _ hthen => ?_
    refine .bind ((writeBlock_yields env elseBody).within fun left hleft => hbare hthen hleft)
      fun _ helse => ?_
    exact .bind (yields_leaving (hbare hthen helse)) fun _ _ => yields_pure (hbare hthen helse)
  | .loop line var bounds old body => by
    have hbare : ∀ {binding a}, bareAll a = bareAll body →
        (Stmt.loop line var bounds binding a).bare = (Stmt.loop line var bounds old body).bare := by
      intro binding a ha
      rw [Stmt.bare, Stmt.bare, ha]
    unfold writeStmt
    refine .bind (yields_leaving (hbare rfl)) fun _ _ => ?_
    refine .bind ((writeBlock_yields env body).within fun left hleft => hbare hleft)
      fun _ hbody => ?_
    exact .bind (yields_leaving (hbare hbody)) fun _ _ => yields_pure (hbare hbody)
  | .function .. | .expr .. | .give .. | .global .. | .comment .. | .blank _ | .pass _ |
    .stop _ | .skip _ => by
    unfold writeStmt
    refine .bind (yields_leaving ?_) fun _ _ => yields_pure ?_
    · rfl
    · rfl

theorem writeBlock_yields (env : Env) : ∀ stmts : List Stmt,
    (writeBlock env stmts).Yields (bareAll · = bareAll stmts) (bareAll · = bareAll stmts)
  | [] => yields_pure rfl
  | stmt :: stmts => by
    have hbare : ∀ {a as}, a.bare = stmt.bare → bareAll as = bareAll stmts →
        bareAll (a :: as) = bareAll (stmt :: stmts) := by
      intro a as ha has
      rw [bareAll, bareAll, ha, has]
    unfold writeBlock
    refine .bind ((writeStmt_yields env stmt).within fun left hleft => hbare hleft rfl)
      fun _ hstmt => ?_
    refine .bind ((writeBlock_yields env stmts).within fun left hleft => hbare hstmt hleft)
      fun _ hstmts => ?_
    exact yields_pure (hbare hstmt hstmts)

end

/-- The definition of a function before any attempt at it. -/
def Task.blank (task : Task) : Stmt := .function task.line task.head none [] (bareAll task.body)

theorem writeFunction_yields (table : CallTable) (globals : Variables) (task : Task)
    (signature : Option Signature) (hoisted : List (String × Kind)) :
    (writeFunction table globals task signature hoisted).Yields (·.bare = task.blank)
      (·.bare = task.blank) := by
  have hbare : ∀ {signature hoisted a}, bareAll a = bareAll task.body →
      (Stmt.function task.line task.head signature hoisted a).bare = task.blank := by
    intro signature hoisted a ha
    rw [Stmt.bare, ha]
    rfl
  unfold writeFunction
  refine .bind (yields_leaving (hbare rfl)) fun s _ => ?_
  cases s.functions.find? task.head.name with
  | none => exact yields_throw (hbare rfl)
  | some slots =>
    dsimp only
    cases slots.openParam? with
    | some param => exact yields_throw (hbare rfl)
    | none =>
      refine .bind (yields_leaving (hbare rfl)) fun _ _ => ?_
      refine .bind ((writeBlock_yields _ task.body).within fun left hleft => hbare hleft)
        fun _ hbody => ?_
      exact .bind (yields_leaving (hbare hbody)) fun _ _ => yields_pure (hbare hbody)

end Attempts

/-- The program and the functions that a round leaves pending, and what the
first of them waits for. -/
structure Written where
  stmts : List Stmt
  remaining : List Nat
  blocker : Option Error

/-- What stands in place after an attempt that may have stalled, and what it waits for. -/
def standing (x : Write Stmt Stmt) : Infer (Stmt × Option Error) := fun s =>
  match x.end s with
  | (.ok stmt, s') => (.ok (stmt, none), s')
  | (.error (.pending e, left), s') => (.ok (left, some e), s')
  | (.error (.failed e, _), s') => (.error (.failed e), s')

/-- Tries once the functions at these places of the program. -/
def writeRound (table : CallTable) (globals : Variables) : List Nat → List Stmt → Infer Written
  | [], stmts => return ⟨stmts, [], none⟩
  | i :: pending, stmts => do
    match stmts[i]? with
    | some (.function line head signature hoisted body) =>
      let (stmt, blocker) ← standing
        (writeFunction table globals ⟨line, head, body⟩ signature hoisted)
      let written ← writeRound table globals pending (stmts.set i stmt)
      match blocker with
      | none => return written
      | some e => return { written with remaining := i :: written.remaining, blocker := some e }
    | _ => writeRound table globals pending stmts

/-- A round in place, which gives up where the round has been idle. -/
def writeTurn (table : CallTable) (globals : Variables) (pending : List Nat)
    (stmts : List Stmt) : Infer Written := do
  let old := (← get).functions
  let written ← writeRound table globals pending stmts
  let new := (← get).functions
  match written.blocker with
  | some blocker =>
    if written.remaining.length = pending.length ∧ new.resolved = old.resolved then
      throw (.pending blocker)
    else return written
  | none => return written

/-- Rounds in place while functions are pending, but no more than so many. -/
def writeTurns (table : CallTable) (globals : Variables) :
    Nat → List Nat → List Stmt → State → Option (Except Stall (List Stmt) × State)
  | _, [], stmts, s => some (.ok stmts, s)
  | 0, _ :: _, _, _ => none
  | count + 1, i :: pending, stmts, s =>
    match endOf (writeTurn table globals (i :: pending) stmts) s with
    | (.error stall, s') => some (.error stall, s')
    | (.ok written, s') => writeTurns table globals count written.remaining written.stmts s'

/-- Inference of a program in place, if the rounds come to an end. -/
def inferInPlace (table : CallTable) (program : Program) : Option (Except Error Program) :=
  match collect table [] (tasksOf program.statements) with
  | .error e => some (.error e)
  | .ok functions =>
    match endOf (inferGlobals table program.statements) ⟨functions, .ofScope .module, []⟩ with
    | (.error stall, _) => some (.error stall.error)
    | (.ok stmts, s) =>
      let bound := roundBound (tasksOf program.statements)
      (writeTurns table s.frame.scope.locals bound (stmts.findIdxs Stmt.isFunction) stmts s).map fun
        | (.error stall, _) => .error stall.error
        | (.ok statements, _) => .ok { program with statements }

/-- At that place of the program stands the function of the task, whatever its slots hold. -/
def Task.StandsAt (task : Task) (stmts : List Stmt) (i : Nat) : Prop :=
  stmts[i]?.map Stmt.bare = some task.blank

section Places

variable {task other : Task} {stmts : List Stmt} {i : Nat}

theorem Task.StandsAt.eq_function (h : task.StandsAt stmts i) : ∃ signature hoisted body,
    stmts[i]? = some (.function task.line task.head signature hoisted body) ∧
      Task.bare ⟨task.line, task.head, body⟩ = task.bare := by
  obtain ⟨stmt, hget, hbare⟩ := Option.map_eq_some_iff.mp h
  cases stmt with
  | function line head signature hoisted body =>
    simp only [Stmt.bare, Task.blank, Stmt.function.injEq, true_and] at hbare
    obtain ⟨rfl, rfl, hbody⟩ := hbare
    exact ⟨signature, hoisted, body, hget, congrArg (Task.mk task.line task.head) hbody⟩
  | _ => cases hbare

theorem standsAt_set {pending : List Nat} {tasks : List Task} (stmt : Stmt)
    (h : List.Forall₂ (fun j task => task.StandsAt stmts j) pending tasks) (hi : i ∉ pending) :
    List.Forall₂ (fun j task => task.StandsAt (stmts.set i stmt) j) pending tasks := by
  have hne : ∀ j ∈ pending, i ≠ j := fun j hj heq => hi (heq ▸ hj)
  refine ((List.forall₂_and_left _ _).mpr ⟨hne, h⟩).imp fun j task hstands => ?_
  rw [Task.StandsAt, List.getElem?_set_ne hstands.1]
  exact hstands.2

end Places

/-- What a round in place has written of what a round achieves. -/
structure Mirrors (pending : List Nat) (stmts : List Stmt) (progress : Progress)
    (written : Written) : Prop where
  blocker : written.blocker = progress.blocker
  remaining : List.Forall₂
    (fun i task => task.StandsAt written.stmts i) written.remaining progress.remaining
  sublist : written.remaining.Sublist pending
  others : ∀ i, i ∉ pending → written.stmts[i]? = stmts[i]?
  kept : ∀ i ∈ written.remaining, written.stmts[i]?.map Stmt.bare = stmts[i]?.map Stmt.bare
  finished : ∀ i ∈ pending, i ∈ written.remaining ∨
    ∃ (task : Task) (done : Stmt), task.StandsAt stmts i ∧
    (task.name, done) ∈ progress.finished ∧ written.stmts[i]? = some done

section Mirrors

variable {task : Task} {pending : List Nat} {stmts : List Stmt} {stmt : Stmt} {i : Nat}
  {progress : Progress}
  {written : Written}

theorem Mirrors.getElem?_self (hstands : task.StandsAt stmts i) (hi : i ∉ pending)
    (h : Mirrors pending (stmts.set i stmt) progress written) : written.stmts[i]? = some stmt := by
  obtain ⟨_, _, _, hget, -⟩ := hstands.eq_function
  rw [h.others i hi, List.getElem?_set_self (List.getElem?_eq_some_iff.mp hget).1]

/-- Of the other functions is written what was written of them after the first. -/
theorem Mirrors.others_cons (h : Mirrors pending (stmts.set i stmt) progress written) :
    (∀ j, j ∉ i :: pending → written.stmts[j]? = stmts[j]?) ∧ ∀ j, j ≠ i →
      (stmts.set i stmt)[j]? = stmts[j]? := by
  have hne : ∀ j, j ≠ i → (stmts.set i stmt)[j]? = stmts[j]? :=
    fun j hj => List.getElem?_set_ne hj.symm
  refine ⟨fun j hj => ?_, hne⟩
  rw [List.mem_cons, not_or] at hj
  rw [h.others j hj.2, hne j hj.1]

theorem Mirrors.done (hstands : task.StandsAt stmts i) (hi : i ∉ pending)
    (h : Mirrors pending (stmts.set i stmt) progress written) :
    Mirrors (i :: pending) stmts
      { progress with finished := (task.name, stmt) :: progress.finished } written := by
  obtain ⟨hothers, hne⟩ := h.others_cons
  have hpending : ∀ j ∈ pending, j ≠ i := fun j hj heq => hi (heq ▸ hj)
  refine ⟨h.blocker, h.remaining, h.sublist.cons i, hothers, fun j hj => ?_, ?_⟩
  · rw [h.kept j hj, hne j (hpending j (h.sublist.subset hj))]
  · refine List.forall_mem_cons.mpr
      ⟨.inr ⟨task, stmt, hstands, List.mem_cons_self, h.getElem?_self hstands hi⟩, ?_⟩
    intro j hj
    refine (h.finished j hj).imp_right ?_
    rintro ⟨other, done, hother, hmem, hget⟩
    rw [Task.StandsAt, hne j (hpending j hj)] at hother
    exact ⟨other, done, hother, List.mem_cons_of_mem _ hmem, hget⟩

theorem Mirrors.stalled {e : Error} (hstands : task.StandsAt stmts i) (hi : i ∉ pending)
    (hbare : stmt.bare = task.blank) (h : Mirrors pending (stmts.set i stmt) progress written) :
    Mirrors (i :: pending) stmts
      { progress with remaining := task :: progress.remaining, blocker := some e }
      { written with remaining := i :: written.remaining, blocker := some e } := by
  obtain ⟨hothers, hne⟩ := h.others_cons
  have hpending : ∀ j ∈ pending, j ≠ i := fun j hj heq => hi (heq ▸ hj)
  have hself : task.StandsAt written.stmts i := by
    rw [Task.StandsAt, h.getElem?_self hstands hi, Option.map_some, hbare]
  refine ⟨rfl, .cons hself h.remaining, h.sublist.cons_cons i, hothers, ?_, ?_⟩
  · refine List.forall_mem_cons.mpr ⟨hself.trans hstands.symm, fun j hj => ?_⟩
    rw [h.kept j hj, hne j (hpending j (h.sublist.subset hj))]
  · refine List.forall_mem_cons.mpr ⟨.inl List.mem_cons_self, fun j hj => ?_⟩
    refine (h.finished j hj).imp (List.mem_cons_of_mem _) ?_
    rintro ⟨other, done, hother, hmem, hget⟩
    rw [Task.StandsAt, hne j (hpending j hj)] at hother
    exact ⟨other, done, hother, hmem, hget⟩

end Mirrors

section Rounds

variable {table : CallTable} {globals : Variables} {task : Task} {tasks : List Task}
  {pending : List Nat}
  {stmts : List Stmt} {s s' : State}

/-- An attempt in place ends as the attempt does, and where it stalls the
function still stands there. -/
theorem ends_standing {written : Task} (hwritten : written.bare = task.bare)
    (signature : Option Signature)
    (hoisted : List (String × Kind)) {r : Except Stall Stmt}
    (h : Ends (inferFunction table globals task) s r s') :
    match r with
    | .ok stmt =>
      Ends (standing (writeFunction table globals written signature hoisted)) s
        (.ok (stmt, none)) s' ∧
        stmt.bare = task.blank
    | .error (.pending e) => ∃ left, left.bare = task.blank ∧
        Ends (standing (writeFunction table globals written signature hoisted)) s
        (.ok (left, some e)) s'
    | .error (.failed e) =>
      Ends (standing (writeFunction table globals written signature hoisted)) s
        (.error (.failed e)) s' := by
  have hblank : written.blank = task.blank := by
    have hparts := Task.mk.inj hwritten
    rw [Task.blank, Task.blank, hparts.1, hparts.2.1, hparts.2.2]
  have hyields := writeFunction_yields table globals written signature hoisted s
  rw [hblank] at hyields
  rw [inferFunction_congr table globals hwritten.symm,
    ← forget_writeFunction table globals written signature hoisted]
    at h
  unfold Ends at h ⊢
  rw [endOf_forget] at h
  have hstanding : ∀ x : Write Stmt Stmt, endOf (standing x) s = match x.end s with
    | (.ok stmt, s') => (.ok (stmt, none), s')
    | (.error (.pending e, left), s') => (.ok (left, some e), s')
    | (.error (.failed e, _), s') => (.error (.failed e), s') := fun _ => rfl
  rw [hstanding]
  rcases hend : (writeFunction table globals written signature hoisted).end
    s with ⟨⟨e | e, left⟩ | stmt, s₁⟩
  · rw [hend] at h
    cases h
    rfl
  · rw [hend] at h hyields
    cases h
    exact ⟨left, hyields, rfl⟩
  · rw [hend] at h hyields
    cases h
    exact ⟨rfl, hyields⟩

theorem writeRound_cons {i line : Nat} {head : FunctionHead} {signature : Option Signature}
    {hoisted : List (String × Kind)} {body : List Stmt}
    (hget : stmts[i]? = some (.function line head signature hoisted body)) :
    writeRound table globals (i :: pending) stmts = (do
      let (stmt, blocker) ← standing
        (writeFunction table globals ⟨line, head, body⟩ signature hoisted)
      let written ← writeRound table globals pending (stmts.set i stmt)
      match blocker with
      | none => return written
      | some e =>
        return { written with remaining := i :: written.remaining, blocker := some e }) := by
  rw [writeRound, hget]

theorem writeRound_mirrors
    (hstands : List.Forall₂ (fun i task => task.StandsAt stmts i) pending tasks)
    (hnodup : pending.Nodup) {r : Except Stall Progress}
    (h : Ends (round table globals tasks) s r s') :
    match r with
    | .error stall => Ends (writeRound table globals pending stmts) s (.error stall) s'
    | .ok progress => ∃ written, Ends (writeRound table globals pending stmts) s (.ok written) s' ∧
        Mirrors pending stmts progress written := by
  induction pending generalizing tasks stmts s r with
  | nil =>
    cases hstands
    obtain ⟨rfl, rfl⟩ := ends_pure.mp h
    exact ⟨⟨stmts, [], none⟩, ends_pure.mpr ⟨rfl, rfl⟩,
      ⟨rfl, .nil, .refl _, fun _ _ => rfl, List.forall_mem_nil _, List.forall_mem_nil _⟩⟩
  | cons i pending ih =>
    cases hstands with
    | @cons _ task _ tasks hhead htail =>
    obtain ⟨hi, hpending⟩ := List.nodup_cons.mp hnodup
    obtain ⟨signature, hoisted, body, hget, hbare⟩ := hhead.eq_function
    have htail' := fun stmt => standsAt_set stmt htail hi
    rw [writeRound_cons hget]
    rcases ends_round_cons h with ⟨e, rfl, hattempt⟩ |
      ⟨s₁, rest, -, hround, ⟨stmt, hattempt, rfl⟩ | ⟨e, hattempt, rfl⟩⟩
    · exact ends_bind_error.mpr (.inl (ends_standing hbare signature hoisted hattempt))
    · obtain ⟨hstanding, hblank⟩ := ends_standing hbare signature hoisted hattempt
      have hrest := ih (htail' stmt) hpending hround
      cases rest with
      | error stall =>
        refine ends_bind_error.mpr (.inr ⟨_, _, hstanding, ?_⟩)
        exact ends_bind_error.mpr (.inl hrest)
      | ok progress =>
        obtain ⟨written, hends, hmirrors⟩ := hrest
        refine ⟨written, ends_bind_ok.mpr ⟨_, _, hstanding, ?_⟩, hmirrors.done hhead hi⟩
        exact ends_bind_ok.mpr ⟨_, _, hends, ends_pure.mpr ⟨rfl, rfl⟩⟩
    · obtain ⟨left, hleft, hstanding⟩ := ends_standing hbare signature hoisted hattempt
      have hrest := ih (htail' left) hpending hround
      cases rest with
      | error stall =>
        refine ends_bind_error.mpr (.inr ⟨_, _, hstanding, ?_⟩)
        exact ends_bind_error.mpr (.inl hrest)
      | ok progress =>
        obtain ⟨written, hends, hmirrors⟩ := hrest
        refine ⟨_, ends_bind_ok.mpr ⟨_, _, hstanding, ?_⟩, hmirrors.stalled hhead hi hleft⟩
        exact ends_bind_ok.mpr ⟨_, _, hends, ends_pure.mpr ⟨rfl, rfl⟩⟩

theorem endOf_writeTurn (pending : List Nat) (stmts : List Stmt) (s : State) :
    endOf (writeTurn table globals pending stmts) s =
      match endOf (writeRound table globals pending stmts) s with
      | (.error stall, s') => (.error stall, s')
      | (.ok written, s') =>
        match written.blocker with
        | some blocker =>
          if written.remaining.length = pending.length ∧
              s'.functions.resolved = s.functions.resolved then
            (.error (.pending blocker), s')
          else (.ok written, s')
        | none => (.ok written, s') := by
  have hget : ∀ s, endOf (get : Infer State) s = (.ok s, s) := fun _ => rfl
  unfold writeTurn
  rw [endOf_bind, hget]
  dsimp only
  rw [endOf_bind]
  rcases endOf (writeRound table globals pending stmts) s with ⟨stall | written, s'⟩
  · rfl
  · dsimp only
    rw [endOf_bind, hget]
    dsimp only
    cases written.blocker with
    | none => rfl
    | some blocker =>
      dsimp only
      split
      · rfl
      · rfl

theorem writeTurn_mirrors
    (hstands : List.Forall₂ (fun i task => task.StandsAt stmts i) pending tasks)
    (hnodup : pending.Nodup) {r : Except Stall Progress}
    (h : Ends (turn table globals tasks) s r s') :
    match r with
    | .error stall => Ends (writeTurn table globals pending stmts) s (.error stall) s'
    | .ok progress => ∃ written, Ends (writeTurn table globals pending stmts) s (.ok written) s' ∧
        Mirrors pending stmts progress written := by
  unfold Ends at h ⊢
  rw [endOf_turn] at h
  rw [endOf_writeTurn]
  rcases hround : endOf (round table globals tasks) s with ⟨stall | progress, s₁⟩
  · have hwrite : endOf (writeRound table globals pending stmts) s = (.error stall, s₁) :=
      writeRound_mirrors hstands hnodup hround
    rw [hround] at h
    cases h
    rw [hwrite]
  · obtain ⟨written, hwrite, hmirrors⟩ := writeRound_mirrors hstands hnodup hround
    have hidle : (written.remaining.length = pending.length ∧
        s₁.functions.resolved = s.functions.resolved) ↔
        progress.Idle tasks s.functions s₁.functions := by
      rw [Progress.Idle, hmirrors.remaining.length_eq, hstands.length_eq]
    rw [show endOf (writeRound table globals pending stmts) s = (.ok written, s₁) from hwrite]
    rw [hround] at h
    dsimp only at h ⊢
    rw [hmirrors.blocker]
    cases hblocker : progress.blocker with
    | none =>
      rw [hblocker] at h
      cases h
      exact ⟨written, rfl, hmirrors⟩
    | some blocker =>
      rw [hblocker] at h
      dsimp only at h ⊢
      by_cases hstops : progress.Idle tasks s.functions s₁.functions
      · rw [if_pos hstops] at h
        cases h
        rw [if_pos (hidle.mpr hstops)]
      · rw [if_neg hstops] at h
        cases h
        rw [if_neg (mt hidle.mp hstops)]
        exact ⟨written, rfl, hmirrors⟩

/-- The rounds in place write the functions that the rounds finish into their places. -/
theorem writeTurns_mirror
    (hstands : List.Forall₂ (fun i task => task.StandsAt stmts i) pending tasks)
    (hnodup : pending.Nodup) {count : Nat} {r : Except Stall (List (String × Stmt))} {last : State}
    (h : turns table globals count tasks s = some (r, last)) :
    match r with
    | .error stall => writeTurns table globals count pending stmts s = some (.error stall, last)
    | .ok finished =>
      ∃ final, writeTurns table globals count pending stmts s = some (.ok final, last) ∧
        (∀ i, i ∉ pending → final[i]? = stmts[i]?) ∧
        ∀ i ∈ pending, ∃ (task : Task) (done : Stmt), task.StandsAt stmts i ∧
        (task.name, done) ∈ finished ∧
          final[i]? = some done := by
  induction count generalizing pending tasks stmts s r last with
  | zero =>
    cases hstands with
    | nil =>
      cases h
      exact ⟨stmts, rfl, fun _ _ => rfl, List.forall_mem_nil _⟩
    | cons => cases h
  | succ count ih =>
    cases hstands with
    | nil =>
      cases h
      exact ⟨stmts, rfl, fun _ _ => rfl, List.forall_mem_nil _⟩
    | @cons i task pending tasks hhead htail =>
      rw [turns] at h
      have hstands := List.Forall₂.cons (R := fun i task => Task.StandsAt task stmts i) hhead htail
      rcases hturn : endOf (turn table globals (task :: tasks)) s with ⟨stall | progress, s₁⟩
      · rw [hturn] at h
        cases h
        have hwrite : endOf (writeTurn table globals (i :: pending) stmts) s =
            (.error stall, last) :=
          writeTurn_mirrors hstands hnodup hturn
        rw [writeTurns, hwrite]
      · rw [hturn] at h
        obtain ⟨written, hwrite, hmirrors⟩ := writeTurn_mirrors hstands hnodup hturn
        obtain ⟨⟨more, last'⟩, hmore, heq⟩ := Option.map_eq_some_iff.mp h
        have hrest := ih hmirrors.remaining (hnodup.sublist hmirrors.sublist) hmore
        have hstep : writeTurns table globals (count + 1) (i :: pending) stmts s =
            writeTurns table globals count written.remaining written.stmts s₁ := by
          rw [writeTurns, show endOf (writeTurn table globals (i :: pending) stmts) s =
            (.ok written, s₁) from hwrite]
        cases more with
        | error stall =>
          cases heq
          exact hstep.trans hrest
        | ok finished =>
          cases heq
          obtain ⟨final, hfinal, hothers, hdone⟩ := hrest
          refine ⟨final, hstep.trans hfinal, fun j hj => ?_, fun j hj => ?_⟩
          · rw [hothers j (fun hmem => hj (hmirrors.sublist.subset hmem)), hmirrors.others j hj]
          · by_cases hremains : j ∈ written.remaining
            · obtain ⟨other, done, hother, hmem, hget⟩ := hdone j hremains
              rw [Task.StandsAt, hmirrors.kept j hremains] at hother
              exact ⟨other, done, hother, List.mem_append_right _ hmem, hget⟩
            · obtain ⟨other, done, hother, hmem, hget⟩ :=
                (hmirrors.finished j hj).resolve_left hremains
              exact ⟨other, done, hother, List.mem_append_left _ hmem,
                (hothers j hremains).trans hget⟩

/-- A round finishes each function that it does not leave, once. -/
theorem round_perm {progress : Progress}
    (h : Ends (round table globals tasks) s (.ok progress) s') :
    (progress.finished.map Prod.fst ++ progress.remaining.map Task.name).Perm
      (tasks.map Task.name) := by
  induction tasks generalizing s progress with
  | nil =>
    obtain ⟨heq, -⟩ := ends_pure.mp h
    cases heq
    exact .nil
  | cons task tasks ih =>
    rcases ends_round_cons h with ⟨_, heq, _⟩ | ⟨s₁, rest, -, hround, ⟨stmt, -, heq⟩ | ⟨e, -, heq⟩⟩
    · cases heq
    · obtain ⟨p, rfl, rfl⟩ := Outcome.map_eq_ok.mp heq.symm
      have hrest := ih hround
      exact hrest.cons task.name
    · obtain ⟨p, rfl, rfl⟩ := Outcome.map_eq_ok.mp heq.symm
      have hrest := ih hround
      exact List.perm_middle.trans (hrest.cons task.name)

theorem rounds_perm {finished : List (String × Stmt)}
    (h : rounds table globals tasks s = (.ok finished, s')) :
    (finished.map Prod.fst).Perm (tasks.map Task.name) := by
  fun_induction rounds table globals tasks s generalizing finished s' with
  | case1 tasks s stall s₁ hround => cases h
  | case2 tasks s p s₁ hround hblocker =>
    cases h
    have hperm := round_perm hround
    rwa [(round_attains hround).blocker hblocker, List.map_nil, List.append_nil] at hperm
  | case3 tasks s p s₁ hround blocker hblocker hlt more last hmore ih =>
    obtain ⟨heq, rfl⟩ := Prod.mk.inj h
    obtain ⟨rest, rfl, rfl⟩ := Outcome.map_eq_ok.mp heq
    rw [List.map_append]
    exact ((ih hmore).append_left _).trans (round_perm hround)
  | case4 tasks s p s₁ hround blocker hblocker => cases h

end Rounds

/-- The functions of a program stand at the places of its definitions. -/
theorem standsAt_findIdxs (before stmts : List Stmt) :
    List.Forall₂ (fun i task => Task.StandsAt task (before ++ stmts) i)
      (stmts.findIdxs Stmt.isFunction before.length)
      (tasksOf stmts) := by
  induction stmts generalizing before with
  | nil => exact .nil
  | cons stmt stmts ih =>
    have hrest := ih (before ++ [stmt])
    rw [List.append_assoc, List.singleton_append, List.length_append,
      List.length_singleton] at hrest
    rw [List.findIdxs_cons]
    cases stmt with
    | function line head signature hoisted body =>
      refine .cons ?_ hrest
      rw [Task.StandsAt, List.getElem?_append_right (Nat.le_refl _), Nat.sub_self]
      rfl
    | _ => exact hrest

section Runs

variable {table : CallTable} {p : Program}

/-- What stands at every place after a run is what the functions of the run leave there. -/
theorem eq_map_place {stmts final : List Stmt} {finished : List (String × Stmt)}
    (hnodup : (finished.map Prod.fst).Nodup)
    (hothers : ∀ i, i ∉ stmts.findIdxs Stmt.isFunction → final[i]? = stmts[i]?)
    (hdone : ∀ i ∈ stmts.findIdxs Stmt.isFunction, ∃ (task : Task) (done : Stmt),
      task.StandsAt stmts i ∧
      (task.name, done) ∈ finished ∧
      final[i]? = some done) : final = stmts.map (place finished) := by
  refine List.ext_getElem? fun i => ?_
  rw [List.getElem?_map]
  by_cases hi : i ∈ stmts.findIdxs Stmt.isFunction
  · obtain ⟨task, done, hstands, hmem, hget⟩ := hdone i hi
    obtain ⟨signature, hoisted, body, hfunction, -⟩ := hstands.eq_function
    have hlookup : finished.lookup task.head.name = some done := lookup_of_mem hnodup hmem
    rw [hget, hfunction, Option.map_some, place, hlookup, Option.getD_some]
  · rw [hothers i hi]
    cases hget : stmts[i]? with
    | none => rfl
    | some stmt =>
      obtain ⟨hlt, rfl⟩ := List.getElem?_eq_some_iff.mp hget
      rw [List.mem_findIdxs_iff_pos_getElem hlt] at hi
      rw [Option.map_some, place_other (Bool.eq_false_iff.mpr hi)]

/-- Inference in place comes to an end, with the program that inference gives. -/
theorem inferInPlace_eq (table : CallTable) (p : Program) :
    inferInPlace table p = some (infer table p).1 := by
  unfold inferInPlace
  rcases collect_cases table [] (tasksOf p.statements) with ⟨e, he, -⟩ | ⟨hcollect, hnodup, -⟩
  · rw [infer, he]
  · rw [List.nil_append] at hcollect
    rw [hcollect]
    dsimp only
    rcases hmodule : endOf (inferGlobals table p.statements) (start p) with ⟨stall | stmts, s⟩
    · have hstart : endOf (inferGlobals table p.statements)
          ⟨(tasksOf p.statements).map fun task => .ofHead task.line task.head,
            .ofScope .module, []⟩ =
            (.error stall, s) := hmodule
      rw [hstart, infer_eq hcollect, inferModule, endOf_bind, hmodule]
    · have hstart : endOf (inferGlobals table p.statements)
          ⟨(tasksOf p.statements).map fun task => .ofHead task.line task.head,
            .ofScope .module, []⟩ =
            (.ok stmts, s) := hmodule
      obtain rfl : s = afterGlobals table p := (congrArg Prod.snd hmodule).symm
      rw [hstart]
      dsimp only
      have hevolves : (heads (tasksOf p.statements)).Evolves (afterGlobals table p).functions :=
        (inherited_fills.inferGlobals p.statements hmodule).toEvolves
      have hturns := turns_eq hcollect hevolves
      have hstands : List.Forall₂ (fun i task => Task.StandsAt task stmts i)
          (stmts.findIdxs Stmt.isFunction)
          (tasksOf p.statements) := tasksOf_inferGlobals hmodule ▸ standsAt_findIdxs [] stmts
      rw [infer_eq_rounds hcollect hmodule]
      rcases hrounds : rounds table (globals table p) (tasksOf p.statements)
        (afterGlobals table p) with
        ⟨stall | finished, last⟩
      · have hwrite :=
          writeTurns_mirror hstands List.nodup_findIdxs (hturns.trans (congrArg some hrounds))
        exact congrArg (Option.map _) hwrite
      · obtain ⟨final, hwrite, hothers, hdone⟩ :=
          writeTurns_mirror hstands List.nodup_findIdxs (hturns.trans (congrArg some hrounds))
        have hkeys : (finished.map Prod.fst).Nodup := (rounds_perm hrounds).nodup_iff.mpr hnodup
        dsimp only
        rw [← eq_map_place hkeys hothers hdone]
        exact congrArg (Option.map _) hwrite

end Runs

/-- Inference of a program that comes from a text gives the same, whatever stands in the slots that
it fills and however often it has tried a function before. It fills all of them and changes nothing
else, so that it leaves its own result as it is. -/
theorem infer_refills {table : CallTable} (htable : table.Built) {source : String} {p p' : Program}
    (hsource : Program.ofSource source = .ok p) (hbare : p'.bare = p.bare) :
    infer table p' = infer table p ∧ inferInPlace table p' = some (infer table p).1 ∧
      ∀ q, (infer table p).1 = .ok q →
        q.bare = p.bare ∧ (∀ stmt ∈ q.statements, stmt.isFilled = true) ∧
        infer table q = infer table p := by
  have hp := Program.wellFormed_of_source hsource
  have hlevel := fun stmt hstmt => (hp.statements stmt hstmt).isModuleLevel
  have hsame : infer table p' = infer table p := infer_congr hlevel hbare
  refine ⟨hsame, (inferInPlace_eq table p').trans (congrArg (fun e => some e.1) hsame),
    fun q hq => ?_⟩
  rcases infer_cases htable.sound hp with ⟨_, herror, _⟩ | ⟨_, _, _, _, hok, h⟩
  · cases hq.symm.trans herror
  · cases hq.symm.trans hok
    have hresult := h.bare_eq htable.sound hp
    exact ⟨hresult, h.isFilled htable.sound hp, infer_congr hlevel hresult⟩

/-- The sample program with slots that hold what inference would not put there. -/
def misfilledSample : Program where
  header := []
  statements := [
    .function 1 ⟨"loop", [], none, true⟩ (some ⟨[.bool], .str⟩) [("x", .float)]
      [.assign 1 (.name "x") (.call "f" [.literal (.int 1)]) none .reassign],
    .function 2 ⟨"f", [⟨"a", none⟩], none, false⟩ none [] [.give 2 (some (.name "a"))]]

/-- The first attempt at its first function stalls at the call of the second. -/
theorem infer_refills_sample :
    misfilledSample.bare = Program.sample.bare ∧
    ∃ q, inferInPlace .builtin misfilledSample = some (.ok q) ∧
      (infer .builtin Program.sample).1 = .ok q ∧
      (infer .builtin q).1 = .ok q ∧ ∀ stmt ∈ q.statements, stmt.isFilled = true := by
  have hbare : misfilledSample.bare = Program.sample.bare := rfl
  obtain ⟨-, hplace, hresult⟩ := infer_refills .builtin Program.ofSource_sample hbare
  obtain ⟨q, hq⟩ := Program.exists_infer_sample
  obtain ⟨-, hfilled, hsame⟩ := hresult q hq
  exact ⟨hbare, q, hq ▸ hplace, hq, hsame ▸ hq, hfilled⟩

end Sketchwright.Inference
