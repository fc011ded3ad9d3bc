import Sketchwright.Proofs.Annotated
import Sketchwright.Proofs.Filling
import Sketchwright.Proofs.Sources

/-! The rounds of a run are bounded. A round that neither finishes a function nor fills a slot ends
the run, so every other one lowers the number of pending functions and open slots, and the run is
over after as many rounds as the program has functions and slots. -/

namespace Sketchwright.Inference

/-- The round has left every function pending and every slot as it was. -/
def Progress.Idle (progress : Progress) (tasks : List Task) (old new : Functions) : Prop :=
  progress.remaining.length = tasks.length ∧ new.resolved = old.resolved

instance (progress : Progress) (tasks : List Task) (old new : Functions) :
    Decidable (progress.Idle tasks old new) :=
  inferInstanceAs (Decidable (_ ∧ _))

/-- A round of a run, which gives up where the round has been idle. -/
def turn (table : CallTable) (globals : Variables) (tasks : List Task) : Infer Progress := do
  let old := (← get).functions
  let progress ← round table globals tasks
  let new := (← get).functions
  match progress.blocker with
  | some blocker =>
    if progress.Idle tasks old new then throw (.pending blocker) else return progress
  | none => return progress

/-- Rounds while functions are pending, but no more than so many. -/
def turns (table : CallTable) (globals : Variables) :
    Nat → List Task → State → Option (Except Stall (List (String × Stmt)) × State)
  | _, [], s => some (.ok [], s)
  | 0, _ :: _, _ => none
  | count + 1, task :: tasks, s =>
    match endOf (turn table globals (task :: tasks)) s with
    | (.error stall, s') => some (.error stall, s')
    | (.ok progress, s') =>
      (turns table globals count progress.remaining s').map fun (more, last) =>
      (more.map (progress.finished ++ ·), last)

/-- Rounds of a run lead from the first functions and state to the last. -/
inductive Leads (table : CallTable) (globals : Variables) :
    List Task → State → List Task → State → Prop
  | here {tasks s} : Leads table globals tasks s tasks s
  | turn {tasks s progress s₁ later t} (hturn : Ends (turn table globals tasks) s (.ok progress) s₁)
      (hrest : Leads table globals progress.remaining s₁ later t) :
      Leads table globals tasks s later t

section Turns

variable {table : CallTable} {globals : Variables} {task : Task} {tasks later : List Task}
  {s s' t : State}

theorem round_evolves (tasks : List Task) :
    Relates Functions.Evolves (round table globals tasks) := by
  induction tasks with
  | nil =>
    intro s r s' hends
    rw [(ends_pure.mp hends).2]
    exact .refl _
  | cons task tasks ih =>
    intro s r s' hends
    rcases ends_round_cons hends with ⟨_, -, hfails⟩ |
      ⟨s₁, rest, -, hround, ⟨_, hattempt, -⟩ | ⟨_, hattempt, -⟩⟩
    · exact inferFunction_evolves hfails
    · exact (inferFunction_evolves hattempt).trans (ih hround)
    · exact (inferFunction_evolves hattempt).trans (ih hround)

theorem Relates.attempt {α : Type} {R : Functions → Functions → Prop} {x : Infer α}
    (hx : Relates R x) :
    Relates R (attempt x) := by
  intro s r s' hends
  rcases ends_attempt hends with ⟨_, -, hends⟩ | ⟨_, -, hends⟩ | ⟨_, -, hends⟩
  all_goals exact hx hends

/-- What is known at the start of a round is known at every attempt in it. -/
theorem attempts_evolve (h : (task, t) ∈ attempts table globals tasks s) :
    s.functions.Evolves t.functions := by
  induction tasks generalizing s with
  | nil => cases h
  | cons other tasks ih =>
    rw [attempts] at h
    rcases List.mem_cons.mp h with heq | h
    · cases heq
      exact .refl _
    · exact (inferFunction_evolves.attempt (ends_endOf _ s)).trans (ih h)

theorem endOf_turn (tasks : List Task) (s : State) : endOf (turn table globals tasks) s =
    match endOf (round table globals tasks) s with
    | (.error stall, s') => (.error stall, s')
    | (.ok progress, s') =>
      match progress.blocker with
      | some blocker =>
        if progress.Idle tasks s.functions s'.functions then (.error (.pending blocker), s')
        else (.ok progress, s')
      | none => (.ok progress, s') := by
  have hget : ∀ s, endOf (get : Infer State) s = (.ok s, s) := fun _ => rfl
  unfold turn
  rw [endOf_bind, hget]
  dsimp only
  rw [endOf_bind]
  rcases endOf (round table globals tasks) s with ⟨stall | progress, s'⟩
  · rfl
  · dsimp only
    rw [endOf_bind, hget]
    dsimp only
    cases progress.blocker with
    | none => rfl
    | some blocker =>
      dsimp only
      split
      · rfl
      · rfl

/-- A turn that goes on is a round that either leaves nothing or is not idle. -/
theorem ends_turn_ok {progress : Progress}
    (h : Ends (turn table globals tasks) s (.ok progress) s') :
    Ends (round table globals tasks) s (.ok progress) s' ∧
      (progress.blocker = none ∨ ¬progress.Idle tasks s.functions s'.functions) := by
  unfold Ends at h ⊢
  rw [endOf_turn] at h
  rcases hround : endOf (round table globals tasks) s with ⟨stall | p, s₁⟩
  · rw [hround] at h
    cases h
  · rw [hround] at h
    dsimp only at h
    split at h
    · split at h
      · cases h
      · next hidle =>
        cases h
        exact ⟨rfl, .inr hidle⟩
    · next hblocker =>
      cases h
      exact ⟨rfl, .inl hblocker⟩

/-- A round leaves no more pending functions and open slots than there were, and as
many only if it is idle. -/
theorem idle_iff (hnodup : (s.functions.map Slots.name).Nodup) {progress : Progress}
    (h : Ends (round table globals tasks) s (.ok progress) s') :
    progress.Idle tasks s.functions s'.functions ↔
      ¬progress.remaining.length + s'.functions.unresolved <
        tasks.length + s.functions.unresolved := by
  have hevolves := round_evolves tasks h
  have hremaining := (round_attains h).remaining.length_le
  have hopen := hevolves.unresolved_le hnodup
  have hcount := hevolves.slotCount_eq hnodup
  have hold := s.functions.resolved_add_unresolved
  have hnew := s'.functions.resolved_add_unresolved
  unfold Progress.Idle
  constructor
  · rintro ⟨hlength, hresolved⟩
    omega
  · intro hle
    constructor <;> omega

theorem turn_lt (hnodup : (s.functions.map Slots.name).Nodup) (hne : tasks ≠ [])
    {progress : Progress} (h : Ends (turn table globals tasks) s (.ok progress) s') :
    progress.remaining.length + s'.functions.unresolved <
      tasks.length + s.functions.unresolved := by
  obtain ⟨hround, hblocker | hidle⟩ := ends_turn_ok h
  · have hopen := (round_evolves tasks hround).unresolved_le hnodup
    have hpos := List.length_pos_iff.mpr hne
    rw [(round_attains hround).blocker hblocker, List.length_nil]
    omega
  · exact not_not.mp (mt (idle_iff hnodup hround).mpr hidle)

theorem turns_nil (count : Nat) (s : State) :
    turns table globals count [] s = some (.ok [], s) := by
  cases count <;> rfl

theorem rounds_nil (s : State) : rounds table globals [] s = (.ok [], s) := by
  rw [rounds]
  rfl

/-- As many turns as functions are pending and slots open are enough to end a run. -/
theorem turns_eq_rounds (hnodup : (s.functions.map Slots.name).Nodup) {count : Nat}
    (hcount : tasks.length + s.functions.unresolved ≤ count) :
    turns table globals count tasks s = some (rounds table globals tasks s) := by
  induction count generalizing tasks s with
  | zero =>
    obtain rfl : tasks = [] := List.length_eq_zero_iff.mp (by omega)
    rw [turns_nil, rounds_nil]
  | succ count ih =>
    cases tasks with
    | nil => rw [turns_nil, rounds_nil]
    | cons task tasks =>
      rw [turns, rounds, endOf_turn]
      change _ = some (match endOf (round table globals (task :: tasks)) s with
        | (.error stall, s') => _ | (.ok progress, s') => _)
      rcases hround : endOf (round table globals (task :: tasks)) s with ⟨stall | progress, s'⟩
      · rfl
      · have hevolves := round_evolves _ hround
        dsimp only
        cases hblocker : progress.blocker with
        | none =>
          dsimp only
          rw [(round_attains hround).blocker hblocker, turns_nil]
          exact congrArg (fun finished => some (Except.ok finished, s'))
            (List.append_nil progress.finished)
        | some blocker =>
          dsimp only
          by_cases hidle : progress.Idle (task :: tasks) s.functions s'.functions
          · rw [if_pos hidle, if_neg ((idle_iff hnodup hround).mp hidle)]
          · have hlt := not_not.mp (mt (idle_iff hnodup hround).mpr hidle)
            rw [if_neg hidle, if_pos hlt]
            dsimp only
            rw [ih (hevolves.nodup hnodup) (by omega)]
            rfl

theorem Leads.evolves (h : Leads table globals tasks s later t) :
    s.functions.Evolves t.functions := by
  induction h with
  | here => exact .refl _
  | turn hturn _ ih => exact (round_evolves _ (ends_turn_ok hturn).1).trans ih

/-- All kinds of the function of a task are known. -/
def Task.Known (task : Task) (fs : Functions) : Prop :=
  ∃ slots, fs.find? task.name = some slots ∧ slots.Complete

theorem Task.Known.of_grows {fs gs : Functions} (h : task.Known fs)
    (hg : fs.Grows gs) : task.Known gs := by
  obtain ⟨slots, hslots, hcomplete⟩ := h
  obtain ⟨slots', hslots', hgrows⟩ := hg.some hslots
  exact ⟨slots', hslots', hcomplete.of_grows hgrows⟩

/-- The functions that a round does not leave are known after it. -/
theorem round_knows {progress : Progress}
    (h : Ends (round table globals tasks) s (.ok progress) s') :
    ∀ task ∈ tasks, task ∈ progress.remaining ∨ task.Known s'.functions := by
  induction tasks generalizing s progress with
  | nil => exact List.forall_mem_nil _
  | cons task tasks ih =>
    rcases ends_round_cons h with ⟨_, heq, _⟩ |
      ⟨s₁, rest, -, hround, ⟨stmt, hattempt, heq⟩ | ⟨e, hattempt, heq⟩⟩
    · cases heq
    · obtain ⟨p, rfl, rfl⟩ := Outcome.map_eq_ok.mp heq.symm
      have hknown : task.Known s₁.functions := inferFunction_completes hattempt
      have hothers := ih hround
      exact List.forall_mem_cons.mpr
        ⟨.inr (hknown.of_grows (round_evolves tasks hround).grows), hothers⟩
    · obtain ⟨p, rfl, rfl⟩ := Outcome.map_eq_ok.mp heq.symm
      refine List.forall_mem_cons.mpr ⟨.inl List.mem_cons_self, fun other hother => ?_⟩
      exact (ih hround other hother).imp_left (List.mem_cons_of_mem _)

theorem rounds_evolve {r : Except Stall (List (String × Stmt))}
    (h : rounds table globals tasks s = (r, s')) :
    s.functions.Evolves s'.functions := by
  fun_induction rounds table globals tasks s generalizing r s' with
  | case1 tasks s stall s₁ hround =>
    cases h
    exact round_evolves tasks hround
  | case2 tasks s p s₁ hround hblocker =>
    cases h
    exact round_evolves tasks hround
  | case3 tasks s p s₁ hround blocker hblocker hlt more last hmore ih =>
    cases h
    exact (round_evolves tasks hround).trans (ih hmore)
  | case4 tasks s p s₁ hround blocker hblocker =>
    cases h
    exact round_evolves tasks hround

/-- After a run that ends well all functions are known. -/
theorem rounds_know {finished : List (String × Stmt)}
    (h : rounds table globals tasks s = (.ok finished, s')) :
    ∀ task ∈ tasks, task.Known s'.functions := by
  fun_induction rounds table globals tasks s generalizing finished s' with
  | case1 tasks s stall s₁ hround => cases h
  | case2 tasks s p s₁ hround hblocker =>
    cases h
    intro task htask
    have hknown := round_knows hround task htask
    rw [(round_attains hround).blocker hblocker] at hknown
    exact hknown.resolve_left List.not_mem_nil
  | case3 tasks s p s₁ hround blocker hblocker hlt more last hmore ih =>
    obtain ⟨heq, rfl⟩ := Prod.mk.inj h
    obtain ⟨rest, rfl, -⟩ := Outcome.map_eq_ok.mp heq
    intro task htask
    rcases round_knows hround task htask with hremains | hknown
    · exact ih hmore task hremains
    · exact hknown.of_grows (rounds_evolve hmore).grows
  | case4 tasks s p s₁ hround blocker hblocker => cases h

end Turns

/-- The number of functions, of parameters and of results. -/
def roundBound (tasks : List Task) : Nat :=
  tasks.length + tasks.foldr (·.head.params.length + ·) 0 + tasks.length

theorem heads_slotCount (tasks : List Task) :
    tasks.length + (heads tasks).slotCount = roundBound tasks := by
  have hsum : (heads tasks).slotCount =
      tasks.foldr (·.head.params.length + ·) 0 + tasks.length := by
    unfold heads Functions.slotCount
    induction tasks with
    | nil => rfl
    | cons task tasks ih =>
      simp only [List.map_cons, List.foldr_cons, List.length_cons, Slots.ofHead,
        List.length_map] at ih ⊢
      omega
  unfold roundBound
  omega

section Runs

variable {table : CallTable} {p : Program} {stmts : List Stmt}

theorem nodup_heads {tasks : List Task} (h : collect table [] tasks = .ok (heads tasks)) :
    ((heads tasks).map Slots.name).Nodup := by
  rcases collect_cases table [] tasks with ⟨e, he, -⟩ | ⟨-, hnodup, -⟩
  · cases h.symm.trans he
  · unfold heads
    rw [List.map_map]
    exact hnodup

theorem tasksOf_inferGlobals {s s' : State}
    (h : Ends (inferGlobals table p.statements) s (.ok stmts) s') :
    tasksOf stmts = tasksOf p.statements := by
  rw [inferGlobals_eq] at h
  obtain ⟨resolved, hblock, rfl⟩ := ends_map_ok.mp h
  obtain ⟨-, hassign⟩ :=
    ends_inferBlock_assign (fun stmt hstmt => (List.mem_filter.mp hstmt).2) hblock
  exact tasksOf_refill p.statements hassign

/-- Where inference comes to the functions, their rounds decide how it ends. -/
theorem infer_eq_rounds
    (hcollect : collect table [] (tasksOf p.statements) = .ok (heads (tasksOf p.statements)))
    (hmodule : Ends (inferGlobals table p.statements) (start p) (.ok stmts)
      (afterGlobals table p)) :
    (infer table p).1 = match (rounds table (globals table p) (tasksOf p.statements)
      (afterGlobals table p)).1 with
      | .error stall => .error stall.error
      | .ok finished => .ok { p with statements := stmts.map (place finished) } := by
  have htasks := tasksOf_inferGlobals hmodule
  have hscope : endOf getScope (afterGlobals table p) =
    (.ok (afterGlobals table p).frame.scope, afterGlobals table p) := rfl
  have hrounds : endOf (fun s => rounds table (globals table p) (tasksOf stmts) s)
      (afterGlobals table p) =
      rounds table (globals table p) (tasksOf p.statements) (afterGlobals table p) := by
    rw [htasks]
    rfl
  rw [infer_eq hcollect, inferModule, endOf_bind, hmodule]
  dsimp only
  rw [endOf_bind, hscope]
  dsimp only
  rw [endOf_bind, show (afterGlobals table p).frame.scope.locals =
    globals table p from rfl, hrounds]
  rcases rounds table (globals table p) (tasksOf p.statements)
    (afterGlobals table p) with ⟨_ | _, _⟩ <;> rfl

/-- The functions and slots of a program bound the rounds that its functions take. -/
theorem turns_eq
    (hcollect : collect table [] (tasksOf p.statements) = .ok (heads (tasksOf p.statements)))
    (hevolves : (heads (tasksOf p.statements)).Evolves (afterGlobals table p).functions) :
    turns table (globals table p) (roundBound (tasksOf p.statements)) (tasksOf p.statements)
      (afterGlobals table p) =
      some (rounds table (globals table p) (tasksOf p.statements) (afterGlobals table p)) := by
  have hheads := nodup_heads hcollect
  refine turns_eq_rounds (hevolves.nodup hheads) ?_
  have hopen := hevolves.unresolved_le hheads
  have hcount := (heads (tasksOf p.statements)).resolved_add_unresolved
  have hslots := heads_slotCount (tasksOf p.statements)
  omega

end Runs

/-- Along the rounds of a run what is known of a function stays known, also in attempts that
stall or fail, and a round that goes on leaves fewer pending functions and open slots. A run
has no more rounds than there are functions, parameters and results, and has resolved every
function or gives an error. -/
theorem infer_rounds {table : CallTable} {p : Program} {stmts : List Stmt}
    (hcollect : collect table [] (tasksOf p.statements) = .ok (heads (tasksOf p.statements)))
    (hmodule : Ends (inferGlobals table p.statements) (start p) (.ok stmts)
      (afterGlobals table p)) :
    (∀ later t, Leads table (globals table p) (tasksOf p.statements)
      (afterGlobals table p) later t →
      (heads (tasksOf p.statements)).Grows t.functions ∧
      (∀ task u r u', (task, u) ∈ attempts table (globals table p) later t →
        Ends (inferFunction table (globals table p) task) u r u' →
          t.functions.Grows u.functions ∧ u.functions.Grows u'.functions) ∧
      ∀ progress t', later ≠ [] → Ends (turn table (globals table p) later) t (.ok progress) t' →
        t.functions.Grows t'.functions ∧
          progress.remaining.length + t'.functions.unresolved <
          later.length + t.functions.unresolved) ∧
    ∃ r last, turns table (globals table p) (roundBound (tasksOf p.statements))
      (tasksOf p.statements)
        (afterGlobals table p) = some (r, last) ∧
      ((∃ stall, r = .error stall ∧ (infer table p).1 = .error stall.error) ∨
        ∃ finished, r = .ok finished ∧
          (infer table p).1 = .ok { p with statements := stmts.map (place finished) } ∧
          ∀ task ∈ tasksOf p.statements, (∃ stmt, (task.name, stmt) ∈ finished) ∧
          task.Known last.functions) := by
  have hheads := nodup_heads hcollect
  have hstart : (heads (tasksOf p.statements)).Evolves (afterGlobals table p).functions :=
    (inherited_fills.inferGlobals p.statements hmodule).toEvolves
  have hnodup := hstart.nodup hheads
  have hinfer := infer_eq_rounds hcollect hmodule
  constructor
  · intro later t hleads
    have hevolves := hleads.evolves
    refine ⟨(hstart.trans hevolves).grows, fun task u r u' htried hends => ?_,
      fun progress t' hne hturn => ?_⟩
    · exact ⟨(attempts_evolve htried).grows, (inferFunction_evolves hends).grows⟩
    · exact ⟨(round_evolves later (ends_turn_ok hturn).1).grows,
        turn_lt (hevolves.nodup hnodup) hne hturn⟩
  · rcases hrounds : rounds table (globals table p) (tasksOf p.statements)
      (afterGlobals table p) with ⟨r, last⟩
    rw [hrounds] at hinfer
    refine ⟨r, last, (turns_eq hcollect hstart).trans (congrArg some hrounds), ?_⟩
    cases r with
    | error stall => exact .inl ⟨stall, rfl, hinfer⟩
    | ok finished =>
      refine .inr ⟨finished, rfl, hinfer, fun task htask => ⟨?_, rounds_know hrounds task htask⟩⟩
      exact (rounds_exhaust hrounds).covered task htask

/-- A program with two functions, one parameter and two results needs no more than five rounds. -/
theorem infer_rounds_sample :
    collect .builtin [] (tasksOf Program.sample.statements) =
      .ok (heads (tasksOf Program.sample.statements)) ∧
    Ends (inferGlobals .builtin Program.sample.statements) (start .sample)
      (.ok Program.sample.statements)
      (afterGlobals .builtin .sample) ∧
    ∃ finished last, turns .builtin (globals .builtin .sample) 5 (tasksOf Program.sample.statements)
        (afterGlobals .builtin .sample) = some (.ok finished, last) ∧
      ∀ task ∈ tasksOf Program.sample.statements, task.Known last.functions := by
  have hcollect : collect .builtin [] (tasksOf Program.sample.statements) =
    .ok (heads (tasksOf Program.sample.statements)) := by decide +kernel
  have hmodule : Ends (inferGlobals .builtin Program.sample.statements) (start .sample)
    (.ok Program.sample.statements) (afterGlobals .builtin .sample) := rfl
  obtain ⟨-, r, last, hturns, ⟨stall, rfl, herror⟩ | ⟨finished, rfl, -, hknown⟩⟩ :=
    infer_rounds hcollect hmodule
  · obtain ⟨p', hok⟩ := Program.exists_infer_sample
    cases hok.symm.trans herror
  · exact ⟨hcollect, hmodule, finished, last, hturns, fun task htask => (hknown task htask).2⟩

end Sketchwright.Inference
