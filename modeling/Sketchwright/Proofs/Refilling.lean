import Sketchwright.Proofs.Soundness
import Sketchwright.Proofs.Turns

/-! Inference does not depend on what stands in the slots that it fills. A program gives the same
result as the same program with its slots emptied, and a result has no slot that is still empty. -/

namespace Sketchwright

mutual

/-- Nothing is left to infer: bindings are resolved, and functions have
signatures of their arity. -/
def Stmt.isFilled : Stmt → Bool
  | .function _ head signature _ body =>
    signature.any (·.params.length == head.params.length) && areFilled body
  | .assign _ _ _ _ binding => binding != .unresolved
  | .conditional _ _ thenBody elseBody => areFilled thenBody && areFilled elseBody
  | .loop _ _ _ binding body => binding != .unresolved && areFilled body
  | _ => true

def areFilled : List Stmt → Bool
  | [] => true
  | stmt :: stmts => stmt.isFilled && areFilled stmts

end

theorem Stmt.isFilled_of_isInert {stmt : Stmt} (h : stmt.isInert = true) :
    stmt.isFilled = true := by
  cases stmt <;> first | rfl | cases h

namespace Inference

/-- The same function with the slots of its body emptied. -/
def Task.bare (task : Task) : Task := { task with body := bareAll task.body }

section Bodies

mutual

theorem inferStmt_bare (env : Env) : ∀ stmt : Stmt, inferStmt env stmt.bare = inferStmt env stmt
  | .conditional line condition thenBody elseBody => by
    unfold Stmt.bare inferStmt
    rw [inferBlock_bare env thenBody, inferBlock_bare env elseBody]
  | .loop line var bounds binding body => by
    unfold Stmt.bare inferStmt
    rw [inferBlock_bare env body]
  | .function .. | .assign .. | .expr .. | .give .. | .global .. | .comment .. | .blank _ |
    .pass _ | .stop _
  | .skip _ => rfl

theorem inferBlock_bare (env : Env) :
    ∀ stmts : List Stmt, inferBlock env (bareAll stmts) = inferBlock env stmts
  | [] => rfl
  | stmt :: stmts => by
    unfold bareAll inferBlock
    rw [inferStmt_bare env stmt, inferBlock_bare env stmts]

end

theorem inferFunction_bare (table : CallTable) (globals : Variables) (task : Task) :
    inferFunction table globals task.bare = inferFunction table globals task := by
  unfold inferFunction Task.bare
  dsimp only
  simp only [inferBlock_bare]
  rfl

theorem inferFunction_congr (table : CallTable) (globals : Variables) {task other : Task}
    (h : task.bare = other.bare) :
    inferFunction table globals task = inferFunction table globals other := by
  rw [← inferFunction_bare, h, inferFunction_bare]

mutual

/-- What the rules resolve has no empty slot. -/
theorem Binds.isFilled {table : CallTable} {stmt stmt' : Stmt} {fr fr' : Frame}
    {readings : List Reading} (h : Binds table fr stmt stmt' fr' readings) :
    stmt'.isFilled = true := by
  cases h with
  | again | first | hoist | element | expr | give | bare | share => rfl
  | conditional hthen helse => rw [Stmt.isFilled, hthen.areFilled, helse.areFilled, Bool.and_self]
  | loopAgain _ _ _ hloop | loopFirst _ _ _ hloop =>
    rw [Stmt.isFilled, hloop.areFilled]
    rfl
  | inert hstmt => exact Stmt.isFilled_of_isInert hstmt

theorem BindsAll.areFilled {table : CallTable} {stmts stmts' : List Stmt} {fr fr' : Frame}
    {readings : List Reading} (h : BindsAll table fr stmts stmts' fr' readings) :
    areFilled stmts' = true := by
  cases h with
  | nil => rfl
  | cons hhead htail => rw [Sketchwright.areFilled, hhead.isFilled, htail.areFilled, Bool.and_self]

end

end Bodies

section Tasks

variable {table : CallTable} {globals : Variables}

theorem tasksOf_bareAll (stmts : List Stmt) :
    tasksOf (bareAll stmts) = (tasksOf stmts).map Task.bare := by
  rw [bareAll_eq_map]
  induction stmts with
  | nil => rfl
  | cons stmt stmts ih =>
    unfold tasksOf at ih ⊢
    rw [List.map_cons, List.filterMap_cons, List.filterMap_cons, ih]
    cases stmt <;> rfl

theorem collect_bare (table : CallTable) (seen : Functions) (tasks : List Task) :
    collect table seen (tasks.map Task.bare) = collect table seen tasks := by
  induction tasks generalizing seen with
  | nil => rfl
  | cons task tasks ih =>
    rw [List.map_cons, collect, collect]
    dsimp only [Task.bare]
    rw [ih]
    rfl

/-- What a round achieves, with what remains emptied. -/
def Progress.bare (progress : Progress) : Progress :=
  { progress with remaining := progress.remaining.map Task.bare }

theorem round_bare (tasks : List Task) :
    round table globals (tasks.map Task.bare) = Progress.bare <$> round table globals tasks := by
  induction tasks with
  | nil => rfl
  | cons task tasks ih =>
    rw [List.map_cons, round, round, inferFunction_bare, ih, map_bind]
    refine congrArg _ (funext fun result => ?_)
    cases result <;> simp [Progress.bare, Task.bare]

theorem run_round_bare {tasks : List Task} {s s' : State} {r : Except Stall Progress}
    (h : (round table globals tasks).run s = (r, s')) :
    (round table globals (tasks.map Task.bare)).run s = (r.map Progress.bare, s') := by
  have hmap := endOf_map Progress.bare (round table globals tasks) s
  rw [← round_bare] at hmap
  exact hmap.trans (congrArg (fun e => (e.1.map Progress.bare, e.2)) h)

theorem rounds_bare (tasks : List Task) (s : State) :
    rounds table globals (tasks.map Task.bare) s = rounds table globals tasks s := by
  fun_induction rounds table globals tasks s with
  | case1 tasks s stall s₁ hround =>
    rw [rounds, run_round_bare hround]
    rfl
  | case2 tasks s p s₁ hround hblocker =>
    rw [rounds, run_round_bare hround]
    simp [Except.map, Progress.bare, hblocker]
  | case3 tasks s p s₁ hround blocker hblocker hlt more last hmore ih =>
    rw [rounds, run_round_bare hround]
    simp [Except.map, Progress.bare, hblocker, hlt, ih, hmore]
  | case4 tasks s p s₁ hround blocker hblocker hnot =>
    rw [rounds, run_round_bare hround]
    simp [Except.map, Progress.bare, hblocker, hnot]

end Tasks

section Module

variable {table : CallTable} {stmts : List Stmt}

/-- What the assignments of the module leave of a statement whose slots were empty. -/
def reset (stmt : Stmt) : Stmt := if stmt.isAssign then stmt else stmt.bare

theorem inferGlobals_bare (table : CallTable) (stmts : List Stmt) :
    inferGlobals table (bareAll stmts) = List.map reset <$> inferGlobals table stmts := by
  induction stmts with
  | nil => rfl
  | cons stmt stmts ih =>
    rw [bareAll]
    cases stmt with
    | assign line target value declared binding =>
      unfold inferGlobals
      rw [ih]
      simp [Stmt.bare, inferStmt, reset, Stmt.isAssign]
    | _ =>
      unfold inferGlobals
      rw [ih]
      simp [Stmt.bare, reset, Stmt.isAssign]

theorem mem_refill {stmt : Stmt} {resolved : List Stmt} (h : stmt ∈ refill stmts resolved) :
    stmt ∈ stmts ∨ stmt ∈ resolved := by
  induction stmts generalizing resolved with
  | nil => cases h
  | cons first stmts ih =>
    rw [refill] at h
    split at h
    · cases resolved with
      | nil =>
        rcases List.mem_cons.mp h with rfl | h
        · exact .inl List.mem_cons_self
        · exact (ih h).imp_left (List.mem_cons_of_mem _)
      | cons other resolved =>
        rcases List.mem_cons.mp h with rfl | h
        · exact .inr List.mem_cons_self
        · exact (ih h).imp (List.mem_cons_of_mem _) (List.mem_cons_of_mem _)
    · rcases List.mem_cons.mp h with rfl | h
      · exact .inl List.mem_cons_self
      · exact (ih h).imp_left (List.mem_cons_of_mem _)

theorem isModuleLevel_of_inferGlobals {stmts' : List Stmt} {s s' : State}
    (hlevel : ∀ stmt ∈ stmts, stmt.isModuleLevel = true)
    (h : Ends (inferGlobals table stmts) s (.ok stmts') s') :
    ∀ stmt ∈ stmts', stmt.isModuleLevel = true := by
  rw [inferGlobals_eq] at h
  obtain ⟨resolved, hblock, rfl⟩ := ends_map_ok.mp h
  obtain ⟨-, hassign⟩ :=
    ends_inferBlock_assign (fun stmt hstmt => (List.mem_filter.mp hstmt).2) hblock
  intro stmt hstmt
  rcases mem_refill hstmt with hstmt | hstmt
  · exact hlevel stmt hstmt
  · have := hassign stmt hstmt
    cases stmt with
    | assign => rfl
    | _ => cases this

/-- A finished function stands in for its definition, whatever the slots of that hold. -/
theorem place_reset {finished : List (String × Stmt)} {stmt : Stmt}
    (hlevel : stmt.isModuleLevel = true)
    (hcovered : ∀ task ∈ tasksOf [stmt], ∃ done, (task.name, done) ∈ finished) :
    place finished (reset stmt) = place finished stmt := by
  cases stmt with
  | function line head signature hoisted body =>
    obtain ⟨done, hdone⟩ := hcovered ⟨line, head, body⟩ (List.mem_singleton_self _)
    have hsome : (finished.lookup head.name).isSome = true :=
      List.lookup_isSome_iff.mpr ⟨_, hdone, beq_self_eq_true _⟩
    obtain ⟨found, hfound⟩ := Option.isSome_iff_exists.mp hsome
    simp [reset, Stmt.isAssign, Stmt.bare, place, hfound]
  | assign | comment | blank | pass => rfl
  | _ => cases hlevel

theorem tasksOf_map_reset (stmts : List Stmt) :
    tasksOf (stmts.map reset) = (tasksOf stmts).map Task.bare := by
  induction stmts with
  | nil => rfl
  | cons stmt stmts ih =>
    unfold tasksOf at ih ⊢
    rw [List.map_cons, List.filterMap_cons, List.filterMap_cons, ih]
    cases stmt <;> rfl

theorem inferModule_bare (hlevel : ∀ stmt ∈ stmts, stmt.isModuleLevel = true) (s : State) :
    endOf (inferModule table (bareAll stmts)) s = endOf (inferModule table stmts) s := by
  have hscope : ∀ s, endOf getScope s = (.ok s.frame.scope, s) := fun _ => rfl
  unfold inferModule
  rw [inferGlobals_bare, endOf_bind, endOf_bind, endOf_map]
  rcases hmodule : endOf (inferGlobals table stmts) s with ⟨stall | resolved, s₁⟩
  · rfl
  · have hlevel' := isModuleLevel_of_inferGlobals hlevel hmodule
    dsimp only [Except.map]
    rw [endOf_bind, endOf_bind, hscope]
    dsimp only
    rw [endOf_bind, endOf_bind, tasksOf_map_reset]
    have hrounds : endOf (fun s =>
        rounds table s₁.frame.scope.locals ((tasksOf resolved).map Task.bare) s) s₁ =
        endOf (fun s => rounds table s₁.frame.scope.locals (tasksOf resolved) s) s₁ :=
        rounds_bare _ _
    rw [hrounds]
    rcases hends : endOf (fun s => rounds table s₁.frame.scope.locals (tasksOf resolved) s) s₁ with
      ⟨stall | finished, last⟩
    · rfl
    · have hcovered := (rounds_exhaust hends).covered
      have hplace : (resolved.map reset).map (place finished) = resolved.map (place finished) := by
        rw [List.map_map]
        refine List.map_congr_left fun stmt hstmt =>
          place_reset (hlevel' stmt hstmt) fun task htask => ?_
        exact hcovered task ((List.singleton_sublist.mpr hstmt).filterMap _ |>.subset htask)
      dsimp only
      rw [hplace]

/-- A program gives what it gives with its slots emptied. -/
theorem infer_emptied {p : Program} (hlevel : ∀ stmt ∈ p.statements, stmt.isModuleLevel = true) :
    infer table p.bare = infer table p := by
  unfold infer
  have hmodule : ∀ s, (inferModule table p.bare.statements).run s =
      (inferModule table p.statements).run s :=
    inferModule_bare hlevel
  rw [show tasksOf p.bare.statements =
    (tasksOf p.statements).map Task.bare from tasksOf_bareAll _, collect_bare]
  simp only [hmodule]
  rfl

theorem isModuleLevel_bare (stmt : Stmt) : stmt.bare.isModuleLevel = stmt.isModuleLevel := by
  cases stmt <;> rfl

/-- Programs that differ in their slots give the same. -/
theorem infer_congr {p p' : Program} (hlevel : ∀ stmt ∈ p.statements, stmt.isModuleLevel = true)
    (hbare : p'.bare = p.bare) : infer table p' = infer table p := by
  have hlevel' : ∀ stmt ∈ p'.statements, stmt.isModuleLevel = true := by
    have hmap : p'.statements.map Stmt.bare = p.statements.map Stmt.bare := by
      rw [← bareAll_eq_map, ← bareAll_eq_map]
      exact congrArg Program.statements hbare
    intro stmt hstmt
    obtain ⟨other, hother, heq⟩ := List.mem_map.mp (hmap ▸ List.mem_map_of_mem hstmt)
    rw [← isModuleLevel_bare, ← heq, isModuleLevel_bare]
    exact hlevel other hother
  rw [← infer_emptied hlevel', hbare, infer_emptied hlevel]

end Module

section Results

variable {table : CallTable} {p p' : Program} {stmts : List Stmt} {finished : List (String × Stmt)}
  {last : Functions}

theorem ResolvesModule.isFilled {c : Callees} {fr fr' : Frame} {stmts stmts' : List Stmt}
    {readings : List Reading} (h : ResolvesModule c fr stmts stmts' fr' readings) :
    ∀ stmt ∈ stmts', stmt.isFunction = false → stmt.isFilled = true := by
  induction h with
  | nil => exact List.forall_mem_nil _
  | assign _ _ ih => exact List.forall_mem_cons.mpr ⟨fun _ => rfl, ih⟩
  | @other _ stmt _ _ _ _ hassign hlevel _ ih =>
    refine List.forall_mem_cons.mpr ⟨fun hfunction => ?_, ih⟩
    cases stmt with
    | comment | blank | pass => rfl
    | function => cases hfunction
    | assign => cases hassign
    | _ => cases hlevel

/-- A resolved program has no empty slot. -/
theorem Inferred.isFilled (htable : table.Sound) (hp : p.WellFormed)
    (h : Inferred table p p' stmts finished last) :
    ∀ stmt ∈ p'.statements, stmt.isFilled = true := by
  obtain ⟨_, hmodule⟩ := h.resolvesModule htable hp
  rw [h.program]
  refine List.forall_mem_map.mpr fun stmt hstmt => ?_
  cases hfunction : stmt.isFunction with
  | false =>
    rw [place_other hfunction]
    exact hmodule.isFilled stmt hstmt hfunction
  | true =>
    cases stmt with
    | function line head signature hoisted body =>
      obtain ⟨_, htask, rfl, s, s', _, hfinishes⟩ := h.place_function htable hp hstmt
      obtain ⟨_, hresolves⟩ := h.resolves htable hp htask hfinishes
      generalize place finished (.function line head signature hoisted body) = done at hresolves
      cases hresolves with
      | intro hsig _ hbody =>
        have harity := (h.signed htable hp htask hsig).1.length_eq
        simp [Stmt.isFilled, hbody.binds.areFilled, harity]
    | _ => cases hfunction

end Results

end Inference

end Sketchwright
