import Sketchwright.Proofs.Globals
import Sketchwright.Proofs.Rounds

/-! Inference of a whole program. When it succeeds, the signatures in the definitions
are complete signatures that agree with all that any attempt knew, and every definition
is resolved under them. -/

namespace Sketchwright.Inference

section Start

variable {table : CallTable} {tasks : List Task} {fs : Functions}

theorem collect_cases (table : CallTable) (seen : Functions) (tasks : List Task) :
    (∃ e, collect table seen tasks = .error e ∧ e.isInternal = false) ∨
      collect table seen tasks = .ok (seen ++ tasks.map fun task => .ofHead task.line task.head) ∧
        (tasks.map Task.name).Nodup ∧ ∀ task ∈ tasks,
          seen.contains task.name = false ∧ table.isKnown task.name = false := by
  induction tasks generalizing seen with
  | nil => exact .inr ⟨by simp [collect, pure, Except.pure], List.nodup_nil, fun _ h => nomatch h⟩
  | cons task tasks ih =>
    rw [collect]
    simp only [Outcome.bind_eq_error, Outcome.bind_eq_ok, Outcome.ite_eq_error, Outcome.ite_eq_ok,
      Outcome.throw_eq_error, Outcome.throw_ne_ok]
    by_cases hseen : seen.contains task.head.name = true
    · exact .inl ⟨.unsupported task.line (.redefinedFunction task.head.name), by simp [hseen], rfl⟩
    by_cases hknown : table.isKnown task.head.name = true
    · exact .inl ⟨.unsupported task.line (.runtimeFunction task.head.name),
        by simp [hseen, hknown], rfl⟩
    rcases ih (seen ++ [.ofHead task.line task.head]) with ⟨e, he, hcalm⟩ | ⟨hok, hnodup, hnew⟩
    · exact .inl ⟨e, by simp [hseen, hknown, he], hcalm⟩
    · have hother : ∀ other ∈ tasks, seen.contains other.name = false ∧ other.name ≠ task.name := by
        intro other ho
        have hfind := (hnew other ho).1
        simp only [Functions.contains, Functions.find?, List.find?_append, List.find?_singleton,
          Option.isSome_or, Bool.or_eq_false_iff] at hfind
        refine ⟨hfind.1, fun heq => ?_⟩
        have hname : ((Slots.ofHead task.line task.head).name == other.name) = true :=
          beq_iff_eq.mpr heq.symm
        rw [hname] at hfind
        simp at hfind
      refine .inr ⟨by simp [hseen, hknown, hok], List.nodup_cons.mpr ⟨fun hmem => ?_, hnodup⟩, ?_⟩
      · obtain ⟨other, ho, heq⟩ := List.mem_map.mp hmem
        exact (hother other ho).2 heq
      · exact List.forall_mem_cons.mpr ⟨⟨Bool.eq_false_iff.mpr hseen, Bool.eq_false_iff.mpr hknown⟩,
          fun other ho => ⟨(hother other ho).1, (hnew other ho).2⟩⟩

variable (hnodup : (tasks.map Task.name).Nodup)

/-- The functions of a program as inference starts. -/
def heads (tasks : List Task) : Functions := tasks.map fun task => .ofHead task.line task.head

include hnodup in
theorem find?_heads {task : Task} (htask : task ∈ tasks) :
    (heads tasks).find? task.name = some (.ofHead task.line task.head) := by
  induction tasks with
  | nil => cases htask
  | cons other tasks ih =>
    rw [List.map_cons, List.nodup_cons] at hnodup
    rcases List.mem_cons.mp htask with rfl | htask
    · exact List.find?_cons_of_pos (beq_iff_eq.mpr rfl)
    · have hne : ((Slots.ofHead other.line other.head).name == task.name) = false := by
        refine beq_eq_false_iff_ne.mpr fun heq => hnodup.1 ?_
        rw [show other.name = task.name from heq]
        exact List.mem_map_of_mem htask
      have htail := ih hnodup.2 htask
      simp only [heads, List.map_cons, Functions.find?, List.find?_cons, hne] at htail ⊢
      exact htail

theorem mem_of_find?_heads {name : String} {slots : Slots}
    (h : (heads tasks).find? name = some slots) :
    ∃ task ∈ tasks, task.name = name ∧ slots = .ofHead task.line task.head := by
  obtain ⟨task, htask, heq⟩ := List.mem_map.mp (List.mem_of_find?_eq_some h)
  subst heq
  exact ⟨task, htask, Functions.name_of_find? h, rfl⟩

theorem heads_proper (hheads : ∀ task ∈ tasks, task.head.WellFormed) : (heads tasks).Proper := by
  intro name slots h
  obtain ⟨task, htask, _, rfl⟩ := mem_of_find?_heads h
  have hhead := hheads task htask
  refine ⟨fun p hp kind hkind => ?_, fun kind hkind => ?_⟩
  · obtain ⟨param, hparam, rfl⟩ := List.mem_map.mp hp
    exact hhead.params param hparam kind hkind
  · simp only [Slots.ofHead] at hkind
    split at hkind
    · exact .inl (Option.some.inj hkind).symm
    · exact hhead.returns kind hkind

end Start

/-- The state in which inference of a program starts. -/
def start (p : Program) : State := ⟨heads (tasksOf p.statements), .ofScope .module, []⟩

/-- The state after the assignments of the module. -/
def afterGlobals (table : CallTable) (p : Program) : State :=
  (endOf (inferGlobals table p.statements) (start p)).2

/-- The variables of the module. -/
def globals (table : CallTable) (p : Program) : Variables :=
  (afterGlobals table p).frame.scope.locals

/-- A successful run of inference: the assignments of the module become `stmts`, and the rounds
finish all functions and come to the functions `last`. -/
structure Inferred (table : CallTable) (p p' : Program) (stmts : List Stmt)
    (finished : List (String × Stmt)) (last : Functions) : Prop where
  nodup : ((tasksOf p.statements).map Task.name).Nodup
  unknown : ∀ task ∈ tasksOf p.statements, table.isKnown task.name = false
  ends : Ends (inferGlobals table p.statements) (start p) (.ok stmts) (afterGlobals table p)
  module : ModuleResolved table (start p) p.statements stmts (afterGlobals table p)
  effect : Effect (fun _ _ _ _ => False) (start p).functions (afterGlobals table p).functions
  advance : Advance (FromTasks table (globals table p) (tasksOf p.statements))
    ((tasksOf p.statements).map Task.name) (afterGlobals table p).functions last
  completes : Completes table (globals table p) (tasksOf p.statements) (afterGlobals table p) last
    finished
  program : p' = { p with statements := stmts.map (place finished) }

section Runs

variable {table : CallTable} {p : Program}

theorem mem_tasksOf {stmts : List Stmt} {task : Task} (h : task ∈ tasksOf stmts) :
    ∃ signature hoisted, Stmt.function task.line task.head signature hoisted task.body ∈ stmts := by
  obtain ⟨stmt, hstmt, htask⟩ := List.mem_filterMap.mp h
  cases stmt with
  | function line head signature hoisted body =>
    cases htask
    exact ⟨signature, hoisted, hstmt⟩
  | _ => cases htask

theorem ResolvesModule.tasksOf_eq {c : Callees} {fr fr' : Frame} {stmts stmts' : List Stmt}
    {readings : List Reading} (h : ResolvesModule c fr stmts stmts' fr' readings) :
    tasksOf stmts' = tasksOf stmts := by
  induction h with
  | nil => rfl
  | assign _ _ ih => exact ih
  | other _ _ _ ih =>
    simp only [tasksOf, List.filterMap_cons] at ih ⊢
    rw [ih]

theorem wellFormed_of_task (hp : p.WellFormed) {task : Task}
    (h : task ∈ tasksOf p.statements) : task.head.WellFormed ∧ arePlain task.body = true := by
  obtain ⟨_, _, hstmt⟩ := mem_tasksOf h
  cases hp.statements _ hstmt with
  | function hhead hbody => exact ⟨hhead, hbody⟩
  | inert _ h => cases h

theorem start_proper (hp : p.WellFormed) : (start p).Proper :=
  ⟨heads_proper fun _ htask => (wellFormed_of_task hp htask).1,
    ⟨⟨fun _ h => (nomatch h), fun _ h => (nomatch h)⟩, fun _ h => (nomatch h),
      fun _ h => (nomatch h)⟩⟩

/-- After the assignments of the module all functions wait to be finished. -/
theorem pending_of_effect {s : State} (hp : p.WellFormed)
    (hnodup : ((tasksOf p.statements).map Task.name).Nodup)
    (heffect : Effect (fun _ _ _ _ => False) (start p).functions s.functions) :
    Pending (tasksOf p.statements) s.functions := by
  refine ⟨heffect.proper (start_proper hp).functions, fun task htask => ?_, hnodup,
    fun task htask => (wellFormed_of_task hp htask).2⟩
  have hawaits : Awaits (start p).functions task := ⟨_, find?_heads hnodup htask, rfl⟩
  exact hawaits.advance (.of_effect heffect) List.not_mem_nil

/-- Inference of a program fails with an error that is no broken condition, or resolves it. -/
theorem infer_cases (htable : table.Sound) (hp : p.WellFormed) :
    (∃ e, (infer table p).1 = .error e ∧ e.isInternal = false) ∨
      ∃ p' stmts finished last, (infer table p).1 = .ok p' ∧
        Inferred table p p' stmts finished last := by
  rcases collect_cases table [] (tasksOf p.statements) with ⟨e, he, hcalm⟩ | ⟨hok, hnodup, hnew⟩
  · exact .inl ⟨e, by simp [infer, he], hcalm⟩
  have hruns := inferGlobals_runs htable p.statements
    (fun stmt hstmt => (hp.statements stmt hstmt).isModuleLevel) (start_proper hp) .start
  rcases hmodule : endOf (inferModule table p.statements) (start p) with ⟨r, s'⟩
  have hinfer : (infer table p).1 = match r with
      | .error stall => .error stall.error
      | .ok (statements, _) => .ok { p with statements } := by
    have hrun : (inferModule table p.statements).run
        ⟨(tasksOf p.statements).map fun task => .ofHead task.line task.head, .ofScope .module, []⟩ =
          (r, s') := hmodule
    simp only [infer, hok, List.nil_append, hrun]
    rcases r with _ | ⟨_, _⟩ <;> rfl
  -- the run of the rounds, once the module is resolved
  have hruns' : ∀ {stmts s₁ r s'}, Ends (inferGlobals table p.statements) (start p) (.ok stmts) s₁ →
      rounds table s₁.frame.scope.locals (tasksOf stmts) s₁ = (r, s') →
      (∀ finished, r = .ok finished → Inferred table p
        { p with statements := stmts.map (place finished) } stmts finished s'.functions) ∧
      ∀ stall, r = .error stall → stall.error.isInternal = false := by
    intro stmts s₁ r s' hends hrounds
    obtain rfl : s₁ = afterGlobals table p := (congrArg Prod.snd hends).symm
    have heffect := hruns.effect hends
    have hresolved := hruns.ok hends
    obtain ⟨signatures, hfits⟩ := (afterGlobals table p).functions.exists_fits
    obtain ⟨_, hresolves⟩ := hresolved.rules hfits
    rw [hresolves.tasksOf_eq] at hrounds
    obtain ⟨hadvance, hcompletes, hcalm⟩ := rounds_ends htable hresolved.proper.scope.locals
      (pending_of_effect hp hnodup heffect) hrounds
    exact ⟨fun finished hok =>
      ⟨hnodup, fun task htask => (hnew task htask).2, hends, hresolved, heffect, hadvance,
        hcompletes finished hok, rfl⟩, hcalm⟩
  have hmodule' : Ends (inferModule table p.statements) (start p) r s' := hmodule
  unfold inferModule at hmodule'
  cases r with
  | error stall =>
    refine .inl ⟨stall.error, hinfer, ?_⟩
    simp only [ends_bind_error, ends_getScope, ends_pure, Except.ok.injEq, reduceCtorEq, false_and,
      false_or, and_false, exists_false, or_false] at hmodule'
    rcases hmodule' with hends | ⟨stmts, s₁, hends, _, _, ⟨rfl, rfl⟩, hrounds⟩
    · exact hruns.error hends
    · exact (hruns' hends hrounds).2 stall rfl
  | ok result =>
    obtain ⟨statements, count⟩ := result
    refine .inr ?_
    simp only [ends_bind_ok, ends_getScope, ends_pure, Except.ok.injEq, Prod.mk.injEq] at hmodule'
    obtain ⟨stmts, s₁, hends, _, _, ⟨rfl, rfl⟩, finished, last, hrounds, ⟨rfl, rfl⟩, rfl⟩ :=
      hmodule'
    exact ⟨_, stmts, finished, _, hinfer, (hruns' hends hrounds).1 finished rfl⟩

end Runs

/-- The signatures of functions all of whose kinds are known. -/
def Functions.signatures (fs : Functions) : Signatures :=
  fun name => (fs.find? name).map fun s => ⟨s.paramKinds, s.returns.getD .void⟩

theorem Slots.Complete.fits {s : Slots} (h : s.Complete) :
    s.Fits ⟨s.paramKinds, s.returns.getD .void⟩ := by
  constructor
  · have hsome := Slots.openParam?_eq_none.mp h.params
    unfold Slots.paramKinds
    generalize s.params = params at hsome
    induction params with
    | nil => exact .nil
    | cons p params ih =>
      obtain ⟨⟨kind, hkind⟩, htail⟩ := List.forall_mem_cons.mp hsome
      rw [List.filterMap_cons_some hkind]
      exact .cons (.inr hkind.symm) (ih htail)
  · obtain ⟨kind, hkind⟩ := Option.isSome_iff_exists.mp h.returns
    rw [hkind]
    exact .refl _

theorem Functions.fits_signatures {fs : Functions}
    (h : ∀ {name s}, fs.find? name = some s → s.Complete) : fs.Fits fs.signatures :=
  ⟨fun hnone => by rw [signatures, hnone]; rfl,
    fun hsome => ⟨_, by rw [signatures, hsome]; rfl, (h hsome).fits⟩⟩

section Results

variable {table : CallTable} {p p' : Program} {stmts : List Stmt}
  {finished : List (String × Stmt)} {last : Functions}

theorem Inferred.grows (h : Inferred table p p' stmts finished last) :
    (heads (tasksOf p.statements)).Grows last :=
  h.effect.grows.trans h.advance.grows

/-- The finished definition of a function comes from one of the attempts at that function. -/
theorem Inferred.placed (h : Inferred table p p' stmts finished last) {task : Task}
    (htask : task ∈ tasksOf p.statements) :
    ∃ stmt s s', finished.lookup task.name = some stmt ∧
      Tried table (globals table p) (tasksOf p.statements) (afterGlobals table p) task s ∧
      Finishes table (globals table p) task stmt last s s' :=
  lookup_of_covered h.nodup h.completes.covered h.completes.entries htask

theorem Inferred.complete (htable : table.Sound) (hp : p.WellFormed)
    (h : Inferred table p p' stmts finished last) {name : String} {slots : Slots}
    (hslots : last.find? name = some slots) : slots.Complete := by
  cases hstart : (heads (tasksOf p.statements)).find? name with
  | none =>
    rw [h.grows.none hstart] at hslots
    cases hslots
  | some s =>
    obtain ⟨task, htask, rfl, _⟩ := mem_of_find?_heads hstart
    obtain ⟨stmt, s, s', _, _, hfinishes⟩ := h.placed htask
    obtain ⟨slots', hslots', hcomplete⟩ := (hfinishes.finished htable
      h.module.proper.scope.locals (wellFormed_of_task hp htask).2).complete
    cases hslots.symm.trans hslots'
    exact hcomplete

theorem Inferred.fits (htable : table.Sound) (hp : p.WellFormed)
    (h : Inferred table p p' stmts finished last) : last.Fits last.signatures :=
  Functions.fits_signatures (h.complete htable hp)

/-- The resolution of the module under the signatures of the run. -/
theorem Inferred.resolvesModule (htable : table.Sound) (hp : p.WellFormed)
    (h : Inferred table p p' stmts finished last) : ∃ readings,
      ResolvesModule ⟨table, last.signatures⟩ (.ofScope .module) p.statements stmts
        (afterGlobals table p).frame readings :=
  h.module.rules ((h.fits htable hp).of_grows h.advance.grows)

theorem Inferred.globals_eq (htable : table.Sound) (hp : p.WellFormed)
    (h : Inferred table p p' stmts finished last) :
    globals table p = (globalsOf stmts).reverse := by
  obtain ⟨_, hresolves⟩ := h.resolvesModule htable hp
  refine hresolves.locals.trans ?_
  simp [Frame.ofScope, Scope.module]

theorem Inferred.nodup_globals (htable : table.Sound) (hp : p.WellFormed)
    (h : Inferred table p p' stmts finished last) : ((globalsOf stmts).map Prod.fst).Nodup := by
  obtain ⟨_, hresolves⟩ := h.resolvesModule htable hp
  exact hresolves.distinct .start (fun x (hx : x ∈ []) => nomatch hx) List.nodup_nil

theorem ResolvesModule.isModuleLevel {c : Callees} {fr fr' : Frame} {stmts stmts' : List Stmt}
    {readings : List Reading} (h : ResolvesModule c fr stmts stmts' fr' readings) :
    ∀ stmt ∈ stmts', stmt.isModuleLevel = true := by
  induction h with
  | nil => exact fun _ h => nomatch h
  | assign _ _ ih => exact List.forall_mem_cons.mpr ⟨rfl, ih⟩
  | other _ hlevel _ ih => exact List.forall_mem_cons.mpr ⟨hlevel, ih⟩

/-- A function statement is replaced by its finished definition. -/
theorem Inferred.place_function (htable : table.Sound) (hp : p.WellFormed)
    (h : Inferred table p p' stmts finished last) {line : Nat} {head : FunctionHead}
    {signature : Option Signature} {hoisted : Context} {body : List Stmt}
    (hstmt : Stmt.function line head signature hoisted body ∈ stmts) :
    ∃ task ∈ tasksOf p.statements, task = ⟨line, head, body⟩ ∧ ∃ s s',
      Tried table (globals table p) (tasksOf p.statements) (afterGlobals table p) task s ∧
      Finishes table (globals table p) task
        (place finished (.function line head signature hoisted body))
        last s s' := by
  obtain ⟨_, hresolves⟩ := h.resolvesModule htable hp
  have htask : (⟨line, head, body⟩ : Task) ∈ tasksOf p.statements := by
    rw [← hresolves.tasksOf_eq]
    exact List.mem_filterMap.mpr ⟨_, hstmt, rfl⟩
  obtain ⟨stmt, s, s', hlookup, htried, hfinishes⟩ := h.placed htask
  have hplace : place finished (.function line head signature hoisted body) = stmt := by
    rw [place, show finished.lookup head.name = some stmt from hlookup, Option.getD_some]
  exact ⟨_, htask, rfl, s, s', htried, hplace ▸ hfinishes⟩

/-- A finished definition is a function with the header of its task. -/
theorem Finishes.stmt_eq {globals : Variables} {task : Task} {stmt : Stmt} {s s' : State}
    (h : Finishes table globals task stmt last s s') : ∃ signature hoisted body,
      stmt = .function task.line task.head (some signature) hoisted body := by
  obtain ⟨slots, hslots, _⟩ := h.awaits
  obtain ⟨body, s₁, _, rfl, _⟩ := ends_inferFunction_ok hslots h.ends
  exact ⟨_, _, _, rfl⟩

theorem place_other {stmt : Stmt} (h : stmt.isFunction = false) : place finished stmt = stmt := by
  cases stmt <;> first | rfl | cases h

/-- Definitions that are put into their places change neither the order nor the globals. -/
theorem Inferred.place_eq (htable : table.Sound) (hp : p.WellFormed)
    (h : Inferred table p p' stmts finished last) {stmt : Stmt} (hstmt : stmt ∈ stmts) :
    (place finished stmt).isFunction = stmt.isFunction ∧ (place finished stmt).line = stmt.line ∧
      global? (place finished stmt) = global? stmt ∧
      (place finished stmt).isTrivia = stmt.isTrivia ∧
      (place finished stmt).isModuleLevel = true := by
  have hlevel : stmt.isModuleLevel = true := by
    obtain ⟨_, hresolves⟩ := h.resolvesModule htable hp
    exact hresolves.isModuleLevel stmt hstmt
  cases hfunction : stmt.isFunction with
  | false =>
    rw [place_other hfunction]
    exact ⟨hfunction, rfl, rfl, rfl, hlevel⟩
  | true =>
    cases stmt with
    | function line head signature hoisted body =>
      obtain ⟨task, _, rfl, s, s', _, hfinishes⟩ := h.place_function htable hp hstmt
      obtain ⟨_, _, _, heq⟩ := hfinishes.stmt_eq
      rw [heq]
      exact ⟨rfl, rfl, rfl, rfl, rfl⟩
    | _ => cases hfunction

theorem Inferred.globalsOf_eq (htable : table.Sound) (hp : p.WellFormed)
    (h : Inferred table p p' stmts finished last) : globalsOf p'.statements = globalsOf stmts := by
  rw [h.program, globalsOf, List.filterMap_map]
  exact List.filterMap_congr fun stmt hstmt => (h.place_eq htable hp hstmt).2.2.1

theorem Inferred.lines (htable : table.Sound) (hp : p.WellFormed)
    (h : Inferred table p p' stmts finished last) :
    (p'.statements.filter (!·.isTrivia)).Pairwise (·.line ≤ ·.line) := by
  have hstatements : (p'.statements.filter (!·.isTrivia)).map Stmt.line =
      (stmts.filter (!·.isTrivia)).map Stmt.line := by
    rw [h.program, List.filter_map, List.map_map]
    have hfilter : stmts.filter ((!·.isTrivia) ∘ place finished) = stmts.filter (!·.isTrivia) :=
      List.filter_congr fun stmt hstmt => by
        simp only [Function.comp, (h.place_eq htable hp hstmt).2.2.2.1]
    rw [hfilter]
    exact List.map_congr_left fun stmt hstmt =>
      (h.place_eq htable hp (List.mem_of_mem_filter hstmt)).2.1
  obtain ⟨_, hresolves⟩ := h.resolvesModule htable hp
  rw [← List.pairwise_map, hstatements, hresolves.lines, List.pairwise_map]
  exact hp.lines

/-- A definition of the resolved program comes from an attempt at its function, and the globals that
precede it are those that are assigned above it. -/
theorem Inferred.definition (htable : table.Sound) (hp : p.WellFormed)
    (h : Inferred table p p' stmts finished last) {d : Definition} (hd : d ∈ p'.definitions) :
    ∃ task ∈ tasksOf p.statements, task.line = d.line ∧ task.head = d.head ∧
      Precedes (globals table p) d.line d.context ∧ ∃ s s',
        Tried table (globals table p) (tasksOf p.statements) (afterGlobals table p) task s ∧
        Finishes table (globals table p) task d.stmt last s s' := by
  obtain ⟨o, ho, hdefinition⟩ := List.mem_filterMap.mp hd
  obtain ⟨hcontext, hstmt⟩ := Occurrence.definition?_eq_some.mp hdefinition
  have hlevel : ∀ stmt ∈ p'.statements, stmt.isModuleLevel = true := by
    rw [h.program]
    intro stmt hmem
    obtain ⟨source, hsource, rfl⟩ := List.mem_map.mp hmem
    exact (h.place_eq htable hp hsource).2.2.2.2
  obtain ⟨before, after, hsplit, hbefore⟩ := mem_occurrencesIn hlevel ho
  rw [hstmt] at hsplit
  rw [hcontext] at hbefore
  have hglobals : globals table p = (globalsOf (before ++ d.stmt :: after)).reverse := by
    rw [h.globals_eq htable hp, ← h.globalsOf_eq htable hp, hsplit]
  have hprecedes : Precedes (globals table p) d.line d.context := by
    rw [hglobals, hbefore]
    refine precedes_of_split ?_ rfl ?_
    · rw [← hsplit, h.globalsOf_eq htable hp]
      exact h.nodup_globals htable hp
    · have hlines := h.lines htable hp
      rw [hsplit, List.filter_append, List.filter_cons_of_pos rfl, List.pairwise_append] at hlines
      intro other hother htrivia
      have hfilter : other ∈ after.filter (!·.isTrivia) :=
        List.mem_filter.mpr ⟨hother, by simp [htrivia]⟩
      exact (List.pairwise_cons.mp hlines.2.1).1 other hfilter
  have hmem : d.stmt ∈ stmts.map (place finished) := by
    have hstatements : p'.statements = stmts.map (place finished) := by rw [h.program]
    rw [← hstatements, hsplit]
    simp
  obtain ⟨source, hsource, hplace⟩ := List.mem_map.mp hmem
  have hfunction : source.isFunction = true := by
    rw [← (h.place_eq htable hp hsource).1, hplace]
    rfl
  cases source with
  | function line head signature hoisted body =>
    obtain ⟨task, htask, rfl, s, s', htried, hfinishes⟩ := h.place_function htable hp hsource
    rw [hplace] at hfinishes
    obtain ⟨_, _, _, heq⟩ := hfinishes.stmt_eq
    cases heq
    exact ⟨_, htask, rfl, rfl, hprecedes, s, s', htried, hfinishes⟩
  | _ => cases hfunction

/-- A finished function is resolved under the signatures of the run. -/
theorem Inferred.resolves (htable : table.Sound) (hp : p.WellFormed)
    (h : Inferred table p p' stmts finished last) {task : Task}
    (htask : task ∈ tasksOf p.statements) {stmt : Stmt} {s s' : State}
    (hfinishes : Finishes table (globals table p) task stmt last s s') : ∃ readings,
      ResolvesTask ⟨table, last.signatures⟩ (globals table p) task stmt readings :=
  (hfinishes.finished htable h.module.proper.scope.locals (wellFormed_of_task hp htask).2).resolves
    (h.fits htable hp)

/-- A function of the resolved program states the signature of the run. -/
theorem Inferred.stated (htable : table.Sound) (hp : p.WellFormed)
    (h : Inferred table p p' stmts finished last) {line : Nat} {head : FunctionHead}
    {signature : Option Signature} {hoisted : Context} {body : List Stmt}
    (hmem : Stmt.function line head signature hoisted body ∈ p'.statements) :
    signature.isSome = true ∧ last.signatures head.name = signature := by
  rw [h.program] at hmem
  obtain ⟨source, hsource, hplace⟩ := List.mem_map.mp hmem
  have hfunction := (h.place_eq htable hp hsource).1
  rw [hplace] at hfunction
  cases source with
  | function _ _ _ _ _ =>
    obtain ⟨task, htask, rfl, s, s', _, hfinishes⟩ := h.place_function htable hp hsource
    obtain ⟨_, hresolves⟩ := h.resolves htable hp htask hfinishes
    rw [hplace] at hresolves
    cases hresolves with
    | intro hsig => exact ⟨rfl, hsig⟩
  | _ => cases hfunction

/-- The definitions of the resolved program state the signatures of the run. -/
theorem Inferred.signatures_eq (htable : table.Sound) (hp : p.WellFormed)
    (h : Inferred table p p' stmts finished last) : p'.signatures = last.signatures := by
  funext name
  cases hfound : p'.signatures name with
  | some signature =>
    obtain ⟨_, stmt, _, hstatements, hstmt, _⟩ := List.findSome?_eq_some_iff.mp hfound
    have hmem : stmt ∈ p'.statements := hstatements ▸ by simp
    split at hstmt
    · split at hstmt
      · next hname =>
        subst hname hstmt
        exact (h.stated htable hp hmem).2.symm
      · cases hstmt
    · cases hstmt
  | none =>
    cases hlast : last.find? name with
    | none => simp [Functions.signatures, hlast]
    | some slots =>
      obtain ⟨slots₀, hslots₀⟩ : ∃ s, (heads (tasksOf p.statements)).find? name = some s := by
        cases hstart : (heads (tasksOf p.statements)).find? name with
        | some s => exact ⟨s, rfl⟩
        | none => rw [h.grows.none hstart] at hlast; cases hlast
      obtain ⟨task, htask, rfl, _⟩ := mem_of_find?_heads hslots₀
      obtain ⟨_, hresolves⟩ := h.resolvesModule htable hp
      rw [← hresolves.tasksOf_eq] at htask
      obtain ⟨_, _, hsource⟩ := mem_tasksOf htask
      obtain ⟨_, _, rfl, s, s', _, hfinishes⟩ := h.place_function htable hp hsource
      obtain ⟨signature, _, _, hplace⟩ := hfinishes.stmt_eq
      have hmem := List.mem_map_of_mem (f := place finished) hsource
      have hstatements : p'.statements = stmts.map (place finished) := by rw [h.program]
      rw [← hstatements] at hmem
      have hnone := List.findSome?_eq_none_iff.mp hfound _ hmem
      rw [hplace] at hnone
      simp [Task.name] at hnone

end Results

end Sketchwright.Inference
