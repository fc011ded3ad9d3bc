import Sketchwright.Proofs.Programs
import Sketchwright.Proofs.Schedules

/-! How inference ends that starts with the kinds of all parameters known. The assignments of the
module ask for no annotation and leave the functions as their headers describe them, and the rounds
schedule the functions from there. -/

namespace Sketchwright

/-- Every parameter of every function has an annotation. -/
def Program.Annotated (p : Program) : Prop :=
  ∀ task ∈ Inference.tasksOf p.statements, ∀ param ∈ task.head.params, param.kind.isSome = true

namespace Inference

/-- The functions have different names, none of which the runtime defines. -/
structure Collected (table : CallTable) (tasks : List Task) : Prop where
  nodup : (tasks.map Task.name).Nodup
  unknown : ∀ task ∈ tasks, table.isKnown task.name = false

section Start

variable {table : CallTable} {tasks : List Task}

theorem collect_calm {seen : Functions} {e : Error} (h : collect table seen tasks = .error e) :
    e.asksAnnotation = false := by
  induction tasks generalizing seen with
  | nil => cases h
  | cons task tasks ih =>
    rw [collect] at h
    simp only [Outcome.bind_eq_error, Outcome.ite_eq_error, Outcome.throw_eq_error,
      Outcome.throw_ne_ok, false_and, exists_false, or_false] at h
    rcases h with ⟨_, rfl⟩ | ⟨_, ⟨_, rfl⟩ | ⟨_, h⟩⟩
    · rfl
    · rfl
    · exact ih h

theorem Collected.collect_eq (h : Collected table tasks) {seen : Functions}
    (hseen : ∀ task ∈ tasks, seen.contains task.name = false) :
    collect table seen tasks = .ok (seen ++ heads tasks) := by
  induction tasks generalizing seen with
  | nil => rw [collect, heads, List.map_nil, List.append_nil]; rfl
  | cons task tasks ih =>
    obtain ⟨hnew, hnodup⟩ := List.nodup_cons.mp h.nodup
    obtain ⟨hknown, hunknown⟩ := List.forall_mem_cons.mp h.unknown
    obtain ⟨hfirst, hseen⟩ := List.forall_mem_cons.mp hseen
    rw [collect]
    simp only [show seen.contains task.head.name = false from hfirst,
      show table.isKnown task.head.name = false from hknown]
    refine (ih ⟨hnodup, hunknown⟩ fun other ho => ?_).trans ?_
    · have hne : task.name ≠ other.name := fun heq => hnew (heq ▸ List.mem_map_of_mem ho)
      have hfind : seen.find? other.name = none := by
        simpa [Functions.contains] using hseen other ho
      have hsingle : ((Slots.ofHead task.line task.head).name == other.name) = false :=
        beq_eq_false_iff_ne.mpr hne
      rw [Functions.contains, Functions.find?, List.find?_append,
        show List.find? (·.name == other.name) seen = none from hfind,
        List.find?_singleton, hsingle]
      rfl
    · rw [List.append_assoc]
      rfl

/-- The functions are known from their headers, or the run ends with them. -/
theorem collect_ends (table : CallTable) (tasks : List Task) :
    collect table [] tasks = .ok (heads tasks) ∧ Collected table tasks ∨
      ∃ e, collect table [] tasks = .error e ∧ e.asksAnnotation = false ∧
        ¬Collected table tasks := by
  cases h : collect table [] tasks with
  | error e =>
    refine .inr ⟨e, rfl, collect_calm h, fun hcollected => ?_⟩
    cases h.symm.trans (hcollected.collect_eq fun _ _ => rfl)
  | ok fs =>
    rcases collect_cases table [] tasks with ⟨e, he, _⟩ | ⟨hok, hnodup, hnew⟩
    · cases h.symm.trans he
    · rw [h] at hok
      exact .inl ⟨hok, hnodup, fun task htask => (hnew task htask).2⟩

/-- With annotations for all parameters, the headers describe them completely. -/
theorem heads_known (hnodup : (tasks.map Task.name).Nodup)
    (hannotated : ∀ task ∈ tasks, ∀ param ∈ task.head.params, param.kind.isSome = true) :
    (heads tasks).Known := by
  refine ⟨?_, fun {name s} hs => ?_⟩
  · rw [heads, List.map_map]
    exact hnodup
  · obtain ⟨task, htask, _, rfl⟩ := mem_of_find?_heads hs
    refine Slots.openParam?_eq_none.mpr fun p hp => ?_
    obtain ⟨param, hparam, rfl⟩ := List.mem_map.mp hp
    exact Option.isSome_iff_exists.mp (hannotated task htask param hparam)

theorem heads_awaits (hnodup : (tasks.map Task.name).Nodup) :
    ∀ task ∈ tasks, Awaits (heads tasks) task :=
  fun _ htask => ⟨_, find?_heads hnodup htask, rfl⟩

end Start

section Module

variable {table : CallTable}

/-- The statements of a module with these resolved assignments. -/
def refill : List Stmt → List Stmt → List Stmt
  | [], _ => []
  | stmt :: stmts, resolved =>
    if stmt.isAssign then resolved.headD stmt :: refill stmts resolved.tail
    else stmt :: refill stmts resolved

/-- The module is resolved as a body of its assignments. -/
theorem inferGlobals_eq (table : CallTable) (stmts : List Stmt) : inferGlobals table stmts =
    refill stmts <$> inferBlock ⟨table, none⟩ (stmts.filter Stmt.isAssign) := by
  induction stmts with
  | nil => rfl
  | cons stmt stmts ih =>
    cases stmt with
    | assign line target value declared binding =>
      rw [List.filter_cons_of_pos rfl, inferBlock, inferGlobals, ih]
      simp [refill, Stmt.isAssign]
    | _ =>
      rw [List.filter_cons_of_neg (by simp [Stmt.isAssign]), inferGlobals, ih]
      · simp [refill, Stmt.isAssign]
      · rintro _ _ _ _ _ ⟨⟩

theorem ends_inferStmt_assign {env : Env} {stmt stmt' : Stmt} {s s' : State}
    (hstmt : stmt.isAssign = true) (h : Ends (inferStmt env stmt) s (.ok stmt') s') :
    stmt'.isAssign = true := by
  cases stmt with
  | assign =>
    obtain ⟨_, _, _, h⟩ := ends_bind_ok.mp h
    obtain ⟨h, _⟩ := ends_pure.mp h
    cases h
    rfl
  | _ => cases hstmt

theorem ends_inferBlock_assign {env : Env} {stmts resolved : List Stmt} {s s' : State}
    (hstmts : ∀ stmt ∈ stmts, stmt.isAssign = true)
    (h : Ends (inferBlock env stmts) s (.ok resolved) s') :
    resolved.length = stmts.length ∧ ∀ stmt ∈ resolved, stmt.isAssign = true := by
  induction stmts generalizing s s' resolved with
  | nil =>
    obtain ⟨h, _⟩ := ends_pure.mp h
    cases h
    exact ⟨rfl, nofun⟩
  | cons stmt stmts ih =>
    obtain ⟨hstmt, hstmts⟩ := List.forall_mem_cons.mp hstmts
    obtain ⟨first, s₁, hfirst, h⟩ := ends_bind_ok.mp h
    obtain ⟨rest, s₂, hrest, h⟩ := ends_bind_ok.mp h
    obtain ⟨h, _⟩ := ends_pure.mp h
    cases h
    obtain ⟨hlength, hassign⟩ := ih hstmts hrest
    exact ⟨congrArg Nat.succ hlength,
      List.forall_mem_cons.mpr ⟨ends_inferStmt_assign hstmt hfirst, hassign⟩⟩

theorem tasksOf_refill (stmts : List Stmt) {resolved : List Stmt}
    (h : ∀ stmt ∈ resolved, stmt.isAssign = true) :
    tasksOf (refill stmts resolved) = tasksOf stmts := by
  induction stmts generalizing resolved with
  | nil => rfl
  | cons stmt stmts ih =>
    have hnone : ∀ {stmt : Stmt} {stmts : List Stmt}, stmt.isAssign = true →
        tasksOf (stmt :: stmts) = tasksOf stmts := by
      intro stmt stmts hstmt
      cases stmt <;> first | rfl | cases hstmt
    rw [refill]
    split
    · next hassign =>
      cases resolved with
      | nil => rw [List.headD_nil, List.tail_nil, hnone hassign, hnone hassign, ih h]
      | cons first resolved =>
        obtain ⟨hfirst, h⟩ := List.forall_mem_cons.mp h
        rw [List.headD_cons, List.tail_cons, hnone hfirst, hnone hassign, ih h]
    · simp only [tasksOf, List.filterMap_cons] at ih ⊢
      rw [ih h]

end Module

/-- How inference ends if all parameters are annotated. -/
inductive InferEnds (table : CallTable) (p : Program) : Except Error Program → Prop
  | refused {e} (hcalm : e.asksAnnotation = false)
      (hnot : ¬Collected table (tasksOf p.statements)) : InferEnds table p (.error e)
  | module {e s} (hcollected : Collected table (tasksOf p.statements))
      (hcalm : e.asksAnnotation = false)
      (hends : Ends (inferBlock ⟨table, none⟩ (p.statements.filter Stmt.isAssign)) (start p)
        (.error (.failed e)) s) : InferEnds table p (.error e)
  | unfinished {resolved s last stall} (hcollected : Collected table (tasksOf p.statements))
      (hends : Ends (inferBlock ⟨table, none⟩ (p.statements.filter Stmt.isAssign)) (start p)
        (.ok resolved) s)
      (hrun : RunEnds table s.frame.scope.locals (tasksOf p.statements)
        (heads (tasksOf p.statements)) last (.error stall)) :
      InferEnds table p (.error stall.error)
  | finished {resolved s last done} (hcollected : Collected table (tasksOf p.statements))
      (hends : Ends (inferBlock ⟨table, none⟩ (p.statements.filter Stmt.isAssign)) (start p)
        (.ok resolved) s)
      (hrun : RunEnds table s.frame.scope.locals (tasksOf p.statements)
        (heads (tasksOf p.statements)) last (.ok done)) :
      InferEnds table p
        (.ok { p with statements := (refill p.statements resolved).map (place done) })

section Runs

variable {table : CallTable} {p : Program}

theorem infer_eq (h : collect table [] (tasksOf p.statements) =
    .ok (heads (tasksOf p.statements))) :
    (infer table p).1 = match (endOf (inferModule table p.statements) (start p)).1 with
      | .error stall => .error stall.error
      | .ok (statements, _) => .ok { p with statements } := by
  have hrun : (inferModule table p.statements).run
      ⟨heads (tasksOf p.statements), .ofScope .module, []⟩ =
        endOf (inferModule table p.statements) (start p) := rfl
  simp only [infer, h, hrun]
  rcases endOf (inferModule table p.statements) (start p) with ⟨_ | ⟨_, _⟩, _⟩ <;> rfl

theorem infer_ends (htable : table.Sound) (hp : p.Annotated) :
    InferEnds table p (infer table p).1 := by
  rcases collect_ends table (tasksOf p.statements) with ⟨hcollect, hcollected⟩ |
    ⟨e, he, hcalm, hnot⟩
  swap
  · have hinfer : (infer table p).1 = .error e := by rw [infer, he]
    rw [hinfer]
    exact .refused hcalm hnot
  have hknown := heads_known hcollected.nodup hp
  have hmodule : Steady true _ (inferBlock ⟨table, none⟩ (p.statements.filter Stmt.isAssign)) :=
    inferBlock_steady htable _
  have hsteady := hmodule (start p) (start p) ⟨hknown, hknown, .refl _, rfl, rfl⟩
  rw [infer_eq hcollect, inferModule, inferGlobals_eq, endOf_bind, endOf_map]
  rcases hends : endOf (inferBlock ⟨table, none⟩ (p.statements.filter Stmt.isAssign)) (start p) with
    ⟨stall | resolved, s⟩
  · obtain ⟨_, hcarries⟩ := hsteady _ _ hends
    cases hcarries with
    | failure hcalm => exact .module hcollected hcalm hends
    | wait hbody => cases hbody
  · obtain ⟨hfunctions, _⟩ := hsteady _ _ hends
    obtain ⟨_, hassign⟩ :=
      ends_inferBlock_assign (fun stmt hstmt => (List.mem_filter.mp hstmt).2) hends
    rcases hrounds : rounds table s.frame.scope.locals (tasksOf p.statements) s with ⟨r, last⟩
    have hrun := rounds_schedule htable (hfunctions ▸ hknown)
      (hfunctions ▸ heads_awaits hcollected.nodup) hcollected.nodup hrounds
    rw [hfunctions] at hrun
    have hrest : endOf (do
        let finished ← fun s₁ => rounds table s.frame.scope.locals
          (tasksOf (refill p.statements resolved)) s₁
        pure ((refill p.statements resolved).map (place finished), s.frame.scope.locals.length)) s =
          (r.map fun finished => ((refill p.statements resolved).map (place finished),
            s.frame.scope.locals.length), last) := by
      rw [tasksOf_refill p.statements hassign, bind_pure_comp, endOf_map]
      show (Except.map _ (rounds table s.frame.scope.locals (tasksOf p.statements) s).1,
        (rounds table s.frame.scope.locals (tasksOf p.statements) s).2) = _
      rw [hrounds]
    have hscope : endOf getScope s = (.ok s.frame.scope, s) := rfl
    dsimp only [Except.map]
    rw [endOf_bind, hscope]
    dsimp only
    rw [hrest]
    cases r with
    | error stall => exact .unfinished hcollected hends hrun
    | ok done => exact .finished hcollected hends hrun

end Runs

end Inference

end Sketchwright
