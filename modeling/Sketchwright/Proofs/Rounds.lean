import Mathlib.Data.List.Nodup
import Sketchwright.Proofs.Functions

/-! The rounds of a run. An attempt that gives up keeps a function waiting, one that succeeds
finishes it, and what a function waits for is not touched by attempts at the others. A run that ends
well has finished every function. -/

namespace Sketchwright.Inference

/-- One of these functions makes a call that fills the slot. -/
def FromTasks (table : CallTable) (globals : Variables) (tasks : List Task) : Reason :=
  fun signatures name i kind => ∃ task ∈ tasks, FromTask table globals task signatures name i kind

def Task.name (task : Task) : String := task.head.name

/-- The attempts of a round, each with the state that it starts from. -/
def attempts (table : CallTable) (globals : Variables) : List Task → State → List (Task × State)
  | [], _ => []
  | task :: tasks, s =>
    (task, s) :: attempts table globals tasks
      (endOf (attempt (inferFunction table globals task)) s).2

/-- In a run of rounds the function is tried in the second state. -/
inductive Tried (table : CallTable) (globals : Variables) :
    List Task → State → Task → State → Prop
  | now {tasks s task s'} (h : (task, s') ∈ attempts table globals tasks s) :
      Tried table globals tasks s task s'
  | later {tasks s progress s₁ task s'}
      (hround : Ends (round table globals tasks) s (.ok progress) s₁)
      (h : Tried table globals progress.remaining s₁ task s') : Tried table globals tasks s task s'

/-- Functions that are still to be finished. -/
structure Pending (tasks : List Task) (fs : Functions) : Prop where
  proper : fs.Proper
  awaits : ∀ task ∈ tasks, Awaits fs task
  nodup : (tasks.map Task.name).Nodup
  plain : ∀ task ∈ tasks, arePlain task.body = true

theorem Pending.tail {task : Task} {tasks : List Task} {fs gs : Functions} {reason : Reason}
    {names : List String} (h : Pending (task :: tasks) fs) (hadvance : Advance reason names fs gs)
    (hnames : names ⊆ [task.name]) : Pending tasks gs := by
  have hnodup := List.nodup_cons.mp h.nodup
  refine ⟨hadvance.proper h.proper, fun other hother => ?_, hnodup.2,
    fun other hother => h.plain other (List.mem_cons_of_mem _ hother)⟩
  refine (h.awaits other (List.mem_cons_of_mem _ hother)).advance hadvance fun hmem => hnodup.1 ?_
  rw [← List.mem_singleton.mp (hnames hmem)]
  exact List.mem_map_of_mem hother

/-- An attempt that finished a function, in a run that goes on to the functions `last`. -/
structure Finishes (table : CallTable) (globals : Variables) (task : Task) (stmt : Stmt)
    (last : Functions) (s s' : State) : Prop where
  ends : Ends (inferFunction table globals task) s (.ok stmt) s'
  proper : s.functions.Proper
  awaits : Awaits s.functions task
  grows : s'.functions.Grows last

/-- What a round achieves that comes from the state `s` to the functions `last`. -/
structure Achieves (table : CallTable) (globals : Variables) (tasks : List Task) (s : State)
    (last : Functions) (progress : Progress) : Prop where
  remaining : progress.remaining.Sublist tasks
  awaits : ∀ task ∈ progress.remaining, Awaits last task
  blocker : progress.blocker = none → progress.remaining = []
  calm : ∀ error, progress.blocker = some error → error.isInternal = false
  covered : ∀ task ∈ tasks,
    task ∈ progress.remaining ∨ ∃ stmt, (task.name, stmt) ∈ progress.finished
  entries : ∀ entry ∈ progress.finished, ∃ task ∈ tasks, entry.1 = task.name ∧ ∃ s₁ s₂,
    (task, s₁) ∈ attempts table globals tasks s ∧
      Finishes table globals task entry.2 last s₁ s₂

/-- A run of rounds that finishes all its functions and comes to the functions `last`. -/
structure Completes (table : CallTable) (globals : Variables) (tasks : List Task) (s : State)
    (last : Functions) (finished : List (String × Stmt)) : Prop where
  covered : ∀ task ∈ tasks, ∃ stmt, (task.name, stmt) ∈ finished
  entries : ∀ entry ∈ finished, ∃ task ∈ tasks, entry.1 = task.name ∧ ∃ s₁ s₂,
    Tried table globals tasks s task s₁ ∧ Finishes table globals task entry.2 last s₁ s₂

section Rounds

variable {table : CallTable} {globals : Variables} {task : Task} {tasks : List Task} {s s' : State}

theorem Finishes.of_grows {stmt : Stmt} {fs gs : Functions}
    (h : Finishes table globals task stmt fs s s') (hg : fs.Grows gs) :
    Finishes table globals task stmt gs s s' :=
  ⟨h.ends, h.proper, h.awaits, h.grows.trans hg⟩

theorem Finishes.finished {stmt : Stmt} {fs : Functions} (htable : table.Sound)
    (hglobals : ∀ v ∈ globals, v.2.kind.isStorable = true) (hplain : arePlain task.body = true)
    (h : Finishes table globals task stmt fs s s') : Finished table globals fs task stmt :=
  (inferFunction_ok htable hglobals hplain h.proper h.awaits h.ends).2.of_grows h.grows

theorem endOf_tryCatch {α : Type} (x : Infer α) (f : Stall → Infer α) (s : State) :
    endOf (tryCatch x f) s = match endOf x s with
      | (.ok a, s₁) => (.ok a, s₁)
      | (.error e, s₁) => endOf (f e) s₁ := by
  simp only [tryCatch, tryCatchThe, MonadExceptOf.tryCatch, ExceptT.tryCatch, endOf, ExceptT.run,
    ExceptT.mk, bind, StateT.bind]
  rcases h : x s with ⟨_ | _, _⟩ <;> rfl

theorem endOf_map {α β : Type} (g : α → β) (x : Infer α) (s : State) :
    endOf (g <$> x) s = ((endOf x s).1.map g, (endOf x s).2) := by
  rw [← bind_pure_comp, endOf_bind]
  rcases endOf x s with ⟨_ | _, _⟩ <;> rfl

theorem ends_attempt {α : Type} {x : Infer α} {r : Except Stall (Except Error α)}
    (h : Ends (attempt x) s r s') :
    (∃ a, r = .ok (.ok a) ∧ Ends x s (.ok a) s') ∨
      (∃ e, r = .ok (.error e) ∧ Ends x s (.error (.pending e)) s') ∨
      ∃ e, r = .error (.failed e) ∧ Ends x s (.error (.failed e)) s' := by
  unfold Ends at h ⊢
  rw [attempt, endOf_tryCatch, endOf_map] at h
  rcases hx : endOf x s with ⟨(e | e) | a, s₁⟩
  · rw [hx] at h
    cases h
    exact .inr (.inr ⟨e, rfl, rfl⟩)
  · rw [hx] at h
    cases h
    exact .inr (.inl ⟨e, rfl, rfl⟩)
  · rw [hx] at h
    cases h
    exact .inl ⟨a, rfl, rfl⟩

/-- A round goes on after an attempt unless that failed. -/
theorem ends_round_cons {r : Except Stall Progress}
    (h : Ends (round table globals (task :: tasks)) s r s') :
    (∃ e, r = .error (.failed e) ∧
        Ends (inferFunction table globals task) s (.error (.failed e)) s') ∨
      ∃ s₁ rest, attempts table globals (task :: tasks) s =
          (task, s) :: attempts table globals tasks s₁ ∧
        Ends (round table globals tasks) s₁ rest s' ∧
        ((∃ stmt, Ends (inferFunction table globals task) s (.ok stmt) s₁ ∧
            r = (fun p => { p with finished := (task.name, stmt) :: p.finished }) <$> rest) ∨
          ∃ e, Ends (inferFunction table globals task) s (.error (.pending e)) s₁ ∧
            r = (fun p => { p with
              remaining := task :: p.remaining, blocker := some e }) <$> rest) := by
  simp only [round, Ends, endOf_bind] at h
  rcases ha : endOf (attempt (inferFunction table globals task)) s with ⟨_ | result, s₁⟩
  · rw [ha] at h
    cases h
    rcases ends_attempt ha with ⟨_, h, _⟩ | ⟨_, h, _⟩ | ⟨e, h, hends⟩
    · cases h
    · cases h
    · cases h
      exact .inl ⟨e, rfl, hends⟩
  · have hattempts : attempts table globals (task :: tasks) s =
        (task, s) :: attempts table globals tasks s₁ := by rw [attempts, ha]
    rw [ha] at h
    -- the rest of the round gives a value or not, and the attempt only adds to it
    have hrest : ∀ {g : Progress → Progress},
        endOf (round table globals tasks >>= fun p => pure (g p)) s₁ = (r, s') →
        ∃ rest, Ends (round table globals tasks) s₁ rest s' ∧ r = g <$> rest := by
      intro g hg
      rw [bind_pure_comp, endOf_map] at hg
      cases hg
      exact ⟨_, ends_endOf _ _, rfl⟩
    rcases ends_attempt ha with ⟨stmt, hresult, hends⟩ | ⟨e, hresult, hends⟩ | ⟨_, hresult, _⟩
    · cases hresult
      obtain ⟨rest, hround, hr⟩ := hrest h
      exact .inr ⟨s₁, rest, hattempts, hround, .inl ⟨stmt, hends, hr⟩⟩
    · cases hresult
      obtain ⟨rest, hround, hr⟩ := hrest h
      exact .inr ⟨s₁, rest, hattempts, hround, .inr ⟨e, hends, hr⟩⟩
    · cases hresult

theorem FromTasks.head {signatures : Signatures} {name : String} {i : Nat} {kind : Kind}
    (h : FromTask table globals task signatures name i kind) :
    FromTasks table globals (task :: tasks) signatures name i kind :=
  ⟨task, List.mem_cons_self .., h⟩

theorem FromTasks.mono {others : List Task} {signatures : Signatures} {name : String} {i : Nat}
    {kind : Kind} (h : FromTasks table globals tasks signatures name i kind)
    (hsub : tasks ⊆ others) : FromTasks table globals others signatures name i kind := by
  obtain ⟨task, htask, hfrom⟩ := h
  exact ⟨task, hsub htask, hfrom⟩

theorem Advance.weaken {reason : Reason} {names others : List String} {fs gs : Functions}
    (h : Advance reason names fs gs) (hsub : names ⊆ others) : Advance reason others fs gs :=
  ⟨h.grows, fun hname => h.returns fun hmem => hname (hsub hmem), h.proper, h.filled⟩

/-- What an attempt in the rest of a round made, an attempt in the round made. -/
theorem attempts_cons {s₁ : State} {finished : List (String × Stmt)}
    {Q : Task → String × Stmt → State → State → Prop}
    (hattempts : attempts table globals (task :: tasks) s =
      (task, s) :: attempts table globals tasks s₁)
    (h : ∀ entry ∈ finished, ∃ other ∈ tasks, entry.1 = other.name ∧ ∃ s₂ s₃,
      (other, s₂) ∈ attempts table globals tasks s₁ ∧ Q other entry s₂ s₃) :
    ∀ entry ∈ finished, ∃ other ∈ task :: tasks, entry.1 = other.name ∧ ∃ s₂ s₃,
      (other, s₂) ∈ attempts table globals (task :: tasks) s ∧ Q other entry s₂ s₃ := by
  intro entry hentry
  obtain ⟨other, hother, hname, s₂, s₃, htried, hmade⟩ := h entry hentry
  rw [hattempts]
  exact ⟨other, List.mem_cons_of_mem _ hother, hname, s₂, s₃, List.mem_cons_of_mem _ htried, hmade⟩

/-- What a round finishes and leaves. -/
structure Attains (table : CallTable) (globals : Variables) (tasks : List Task) (s : State)
    (progress : Progress) : Prop where
  remaining : progress.remaining.Sublist tasks
  blocker : progress.blocker = none → progress.remaining = []
  covered : ∀ task ∈ tasks,
    task ∈ progress.remaining ∨ ∃ stmt, (task.name, stmt) ∈ progress.finished
  entries : ∀ entry ∈ progress.finished, ∃ task ∈ tasks, entry.1 = task.name ∧ ∃ s₁ s₂,
    (task, s₁) ∈ attempts table globals tasks s ∧
      Ends (inferFunction table globals task) s₁ (.ok entry.2) s₂

theorem round_attains {progress : Progress}
    (h : Ends (round table globals tasks) s (.ok progress) s') :
    Attains table globals tasks s progress := by
  induction tasks generalizing s progress with
  | nil =>
    obtain ⟨heq, _⟩ := ends_pure.mp h
    cases heq
    exact ⟨.refl _, fun _ => rfl, fun _ hmem => (nomatch hmem), fun _ hmem => (nomatch hmem)⟩
  | cons task tasks ih =>
    rcases ends_round_cons h with ⟨_, heq, _⟩ |
      ⟨s₁, rest, hattempts, hround, ⟨stmt, hends, heq⟩ | ⟨e, hends, heq⟩⟩
    · cases heq
    · obtain ⟨p, rfl, rfl⟩ := Outcome.map_eq_ok.mp heq.symm
      have hp := ih hround
      constructor
      · exact hp.remaining.cons task
      · exact hp.blocker
      · refine List.forall_mem_cons.mpr ⟨?_, ?_⟩
        · exact .inr ⟨stmt, List.mem_cons_self⟩
        · intro other hother
          exact (hp.covered other hother).imp_right (Exists.imp fun _ => List.mem_cons_of_mem _)
      · refine List.forall_mem_cons.mpr ⟨?_, ?_⟩
        · rw [hattempts]
          exact ⟨task, List.mem_cons_self, rfl, s, s₁, List.mem_cons_self, hends⟩
        · exact attempts_cons hattempts hp.entries
    · obtain ⟨p, rfl, rfl⟩ := Outcome.map_eq_ok.mp heq.symm
      have hp := ih hround
      constructor
      · exact hp.remaining.cons_cons task
      · intro hnone
        cases hnone
      · refine List.forall_mem_cons.mpr ⟨?_, ?_⟩
        · exact .inl List.mem_cons_self
        · intro other hother
          exact (hp.covered other hother).imp_left (List.mem_cons_of_mem _)
      · exact attempts_cons hattempts hp.entries

/-- A round that is not blocked finishes every function. -/
theorem Attains.covered_of_done {p : Progress} (h : Attains table globals tasks s p)
    (hdone : p.blocker = none) : ∀ task ∈ tasks, ∃ stmt, (task.name, stmt) ∈ p.finished := by
  intro task htask
  have hcovered := h.covered task htask
  rw [h.blocker hdone] at hcovered
  exact hcovered.resolve_left List.not_mem_nil

theorem Attains.covered_append {p : Progress} {rest : List (String × Stmt)}
    (h : Attains table globals tasks s p)
    (hrest : ∀ task ∈ p.remaining, ∃ stmt, (task.name, stmt) ∈ rest) :
    ∀ task ∈ tasks, ∃ stmt, (task.name, stmt) ∈ p.finished ++ rest := by
  intro task htask
  rcases h.covered task htask with hremains | ⟨stmt, hstmt⟩
  · obtain ⟨stmt, hstmt⟩ := hrest task hremains
    exact ⟨stmt, List.mem_append_right _ hstmt⟩
  · exact ⟨stmt, List.mem_append_left _ hstmt⟩

/-- Under the name of a function stands what an attempt at that function made:
no other has its name. -/
theorem lookup_of_covered {finished : List (String × Stmt)} {P : Task → State → Prop}
    {Q : Task → String × Stmt → State → State → Prop} (hnodup : (tasks.map Task.name).Nodup)
    (hcovered : ∀ task ∈ tasks, ∃ stmt, (task.name, stmt) ∈ finished)
    (hentries : ∀ entry ∈ finished, ∃ task ∈ tasks, entry.1 = task.name ∧ ∃ s₁ s₂,
      P task s₁ ∧ Q task entry s₁ s₂) (htask : task ∈ tasks) :
    ∃ stmt s₁ s₂, finished.lookup task.name = some stmt ∧ P task s₁ ∧
      Q task (task.name, stmt) s₁ s₂ := by
  obtain ⟨stmt₀, hstmt₀⟩ := hcovered task htask
  have hsome : (finished.lookup task.name).isSome = true :=
    List.lookup_isSome_iff.mpr ⟨_, hstmt₀, beq_self_eq_true _⟩
  obtain ⟨stmt, hlookup⟩ := Option.isSome_iff_exists.mp hsome
  obtain ⟨_, _, hsplit, _⟩ := List.lookup_eq_some_iff.mp hlookup
  obtain ⟨other, hother, hname, s₁, s₂, htried, hmade⟩ :=
    hentries (task.name, stmt) (hsplit ▸ by simp)
  obtain rfl : other = task := List.inj_on_of_nodup_map hnodup hother htask hname.symm
  exact ⟨stmt, s₁, s₂, hlookup, htried, hmade⟩

/-- The functions that a run of rounds finishes are all of them, each in one of its attempts. -/
structure Exhausts (table : CallTable) (globals : Variables) (tasks : List Task) (s : State)
    (finished : List (String × Stmt)) : Prop where
  covered : ∀ task ∈ tasks, ∃ stmt, (task.name, stmt) ∈ finished
  entries : ∀ entry ∈ finished, ∃ task ∈ tasks, entry.1 = task.name ∧ ∃ s₁ s₂,
    Tried table globals tasks s task s₁ ∧
      Ends (inferFunction table globals task) s₁ (.ok entry.2) s₂

theorem rounds_exhaust {finished : List (String × Stmt)}
    (h : rounds table globals tasks s = (.ok finished, s')) :
    Exhausts table globals tasks s finished := by
  fun_induction rounds table globals tasks s generalizing finished s' with
  | case1 tasks s stall s₁ hround => cases h
  | case2 tasks s p s₁ hround hblocker =>
    cases h
    have hp := round_attains hround
    constructor
    · exact hp.covered_of_done hblocker
    · intro entry hentry
      obtain ⟨task, htask, hname, s₂, s₃, htried, hends⟩ := hp.entries entry hentry
      exact ⟨task, htask, hname, s₂, s₃, .now htried, hends⟩
  | case3 tasks s p s₁ hround blocker hblocker hlt more last hmore ih =>
    obtain ⟨heq, _⟩ := Prod.mk.inj h
    obtain ⟨rest, rfl, rfl⟩ := Outcome.map_eq_ok.mp heq
    have hp := round_attains hround
    have hrest := ih hmore
    constructor
    · exact hp.covered_append hrest.covered
    · intro entry hentry
      rcases List.mem_append.mp hentry with hentry | hentry
      · obtain ⟨task, htask, hname, s₂, s₃, htried, hends⟩ := hp.entries entry hentry
        exact ⟨task, htask, hname, s₂, s₃, .now htried, hends⟩
      · obtain ⟨task, htask, hname, s₂, s₃, htried, hends⟩ := hrest.entries entry hentry
        exact ⟨task, hp.remaining.subset htask, hname, s₂, s₃, .later hround htried, hends⟩
  | case4 tasks s p s₁ hround blocker hblocker => cases h

/-- A round keeps the invariant and finishes the functions that it does not leave. -/
theorem round_ends (htable : table.Sound) (hglobals : ∀ v ∈ globals, v.2.kind.isStorable = true)
    (hpending : Pending tasks s.functions) {r : Except Stall Progress}
    (h : Ends (round table globals tasks) s r s') :
    Advance (FromTasks table globals tasks) (tasks.map Task.name) s.functions s'.functions ∧
      (∀ progress, r = .ok progress →
        Achieves table globals tasks s s'.functions progress) ∧
      ∀ stall, r = .error stall → stall.error.isInternal = false := by
  induction tasks generalizing s s' r with
  | nil =>
    simp only [round, ends_pure] at h
    obtain ⟨rfl, rfl⟩ := h
    refine ⟨.of_effect .refl, ?_, fun _ h => by cases h⟩
    rintro _ ⟨⟩
    exact ⟨.refl _, List.forall_mem_nil _, fun _ => rfl, fun _ h => (by cases h),
      List.forall_mem_nil _, List.forall_mem_nil _⟩
  | cons task tasks ih =>
    have hmem : task ∈ task :: tasks := List.mem_cons_self ..
    have hsub : tasks ⊆ task :: tasks := List.subset_cons_self ..
    have hawaits := hpending.awaits task hmem
    have hplain := hpending.plain task hmem
    have hnodup := List.nodup_cons.mp hpending.nodup
    rcases ends_round_cons h with ⟨e, rfl, hends⟩ |
      ⟨s₁, rest, hattempts, hround, ⟨stmt, hends, rfl⟩ | ⟨e, hends, rfl⟩⟩
    · obtain ⟨hadvance, hcalm⟩ :=
        inferFunction_error htable hglobals hplain hpending.proper hawaits hends
      refine ⟨(hadvance.mono FromTasks.head).weaken (List.nil_subset _),
        fun _ h => (by cases h), ?_⟩
      rintro _ ⟨⟩
      exact hcalm
    · obtain ⟨hadvance, hfinished⟩ :=
        inferFunction_ok htable hglobals hplain hpending.proper hawaits hends
      obtain ⟨hadvance', hachieves, hcalm⟩ :=
        ih (hpending.tail hadvance (List.Subset.refl _)) hround
      refine ⟨(hadvance.mono FromTasks.head).trans (hadvance'.mono (FromTasks.mono · hsub)),
        fun progress hprogress => ?_, fun stall hstall =>
        hcalm stall (Outcome.map_eq_error.mp hstall)⟩
      obtain ⟨p, rfl, rfl⟩ := Outcome.map_eq_ok.mp hprogress
      have hp := hachieves p rfl
      have hround := round_attains h
      refine ⟨hround.remaining, hp.awaits, hround.blocker, hp.calm, hround.covered, ?_⟩
      refine List.forall_mem_cons.mpr
        ⟨⟨task, hmem, rfl, s, s₁, ?_, ?_⟩, attempts_cons hattempts hp.entries⟩
      · rw [hattempts]
        exact List.mem_cons_self ..
      · exact ⟨hends, hpending.proper, hawaits, hadvance'.grows⟩
    · obtain ⟨hadvance, hcalm₁⟩ :=
        inferFunction_error htable hglobals hplain hpending.proper hawaits
        hends
      obtain ⟨hadvance', hachieves, hcalm⟩ := ih (hpending.tail hadvance (List.nil_subset _)) hround
      refine ⟨(hadvance.mono FromTasks.head).trans
        (hadvance'.mono (FromTasks.mono · hsub)) |>.weaken
          (List.subset_cons_self ..),
        fun progress hprogress => ?_, fun stall hstall =>
          hcalm stall (Outcome.map_eq_error.mp hstall)⟩
      obtain ⟨p, rfl, rfl⟩ := Outcome.map_eq_ok.mp hprogress
      have hp := hachieves p rfl
      have hround := round_attains h
      refine ⟨hround.remaining, ?_, hround.blocker, ?_, hround.covered,
        attempts_cons hattempts hp.entries⟩
      · exact List.forall_mem_cons.mpr
          ⟨(hawaits.advance hadvance List.not_mem_nil).advance hadvance' hnodup.1, hp.awaits⟩
      · rintro _ ⟨⟩
        exact hcalm₁

theorem Achieves.pending {last : Functions} {p : Progress} {reason : Reason} {names : List String}
    (h : Achieves table globals tasks s last p) (hpending : Pending tasks s.functions)
    (hadvance : Advance reason names s.functions last) : Pending p.remaining last :=
  ⟨hadvance.proper hpending.proper, h.awaits, hpending.nodup.sublist (h.remaining.map _),
    fun task htask => hpending.plain task (h.remaining.subset htask)⟩

/-- A run of rounds keeps the invariant, and finishes all functions if it ends well. -/
theorem rounds_ends (htable : table.Sound) (hglobals : ∀ v ∈ globals, v.2.kind.isStorable = true)
    (hpending : Pending tasks s.functions) {r : Except Stall (List (String × Stmt))}
    (h : rounds table globals tasks s = (r, s')) :
    Advance (FromTasks table globals tasks) (tasks.map Task.name) s.functions s'.functions ∧
      (∀ finished, r = .ok finished → Completes table globals tasks s s'.functions finished) ∧
      ∀ stall, r = .error stall → stall.error.isInternal = false := by
  fun_induction rounds table globals tasks s generalizing r s' with
  | case1 tasks s stall s₁ hround =>
    cases h
    obtain ⟨hadvance, _, hcalm⟩ := round_ends htable hglobals hpending hround
    refine ⟨hadvance, fun _ h => (nomatch h), ?_⟩
    rintro _ ⟨⟩
    exact hcalm _ rfl
  | case2 tasks s p s₁ hround hblocker =>
    cases h
    obtain ⟨hadvance, hachieves, _⟩ := round_ends htable hglobals hpending hround
    have hp := hachieves p rfl
    refine ⟨hadvance, ?_, fun _ h => (nomatch h)⟩
    rintro _ ⟨⟩
    refine ⟨(round_attains hround).covered_of_done hblocker, fun entry hentry => ?_⟩
    obtain ⟨task, htask, hname, s₂, s₃, htried, hfinishes⟩ := hp.entries entry hentry
    exact ⟨task, htask, hname, s₂, s₃, .now htried, hfinishes⟩
  | case3 tasks s p s₁ hround blocker hblocker hlt more last hmore ih =>
    cases h
    obtain ⟨hadvance, hachieves, _⟩ := round_ends htable hglobals hpending hround
    have hp := hachieves p rfl
    obtain ⟨hadvance', hcompletes, hcalm⟩ := ih (hp.pending hpending hadvance) hmore
    have hsub := hp.remaining.subset
    refine ⟨(hadvance.trans (hadvance'.mono (FromTasks.mono · hsub))).weaken ?_, ?_, ?_⟩
    · exact List.append_subset.mpr ⟨List.Subset.refl _, List.map_subset _ hsub⟩
    · intro finished hfinished
      obtain ⟨rest, rfl, rfl⟩ := Outcome.map_eq_ok.mp hfinished
      have hrest := hcompletes rest rfl
      refine ⟨(round_attains hround).covered_append hrest.covered, fun entry hentry => ?_⟩
      rcases List.mem_append.mp hentry with hentry | hentry
      · obtain ⟨task, htask, hname, s₂, s₃, htried, hfinishes⟩ := hp.entries entry hentry
        exact ⟨task, htask, hname, s₂, s₃, .now htried, hfinishes.of_grows hadvance'.grows⟩
      · obtain ⟨task, htask, hname, s₂, s₃, htried, hfinishes⟩ := hrest.entries entry hentry
        exact ⟨task, hsub htask, hname, s₂, s₃, .later hround htried, hfinishes⟩
    · exact fun stall hstall => hcalm stall (Outcome.map_eq_error.mp hstall)
  | case4 tasks s p s₁ hround blocker hblocker =>
    cases h
    obtain ⟨hadvance, hachieves, _⟩ := round_ends htable hglobals hpending hround
    refine ⟨hadvance, fun _ h => (nomatch h), ?_⟩
    rintro _ ⟨⟩
    exact (hachieves p rfl).calm _ hblocker

end Rounds

end Sketchwright.Inference
