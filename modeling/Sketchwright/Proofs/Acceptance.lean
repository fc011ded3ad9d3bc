import Sketchwright.Proofs.Walks

/-! Programs that inference accepts, of whatever form. The assignments at the top are bound in their
order, and every function has an attempt that went through its body and made the function that
stands in the resolved program. -/

namespace Sketchwright.Inference

section Rounds

variable {table : CallTable} {globals : Variables} {tasks : List Task} {s s' : State}

/-- In the place of a function stands what one of its attempts made of it. -/
theorem Exhausts.place {finished : List (String × Stmt)}
    (h : Exhausts table globals tasks s finished) (hnodup : (tasks.map Task.name).Nodup)
    {line : Nat} {head : FunctionHead} (signature : Option Signature) (hoisted : Context)
    {body : List Stmt} (htask : ⟨line, head, body⟩ ∈ tasks) :
    ∃ s₁ s₂,
      Tried table globals tasks s ⟨line, head, body⟩ s₁ ∧
      Ends (inferFunction table globals ⟨line, head, body⟩) s₁
        (.ok (place finished (.function line head signature hoisted body))) s₂ := by
  obtain ⟨stmt, s₁, s₂, hlookup, htried, hends⟩ :=
    lookup_of_covered hnodup h.covered h.entries htask
  rw [Inference.place, show finished.lookup head.name = some stmt from hlookup, Option.getD_some]
  exact ⟨s₁, s₂, htried, hends⟩

theorem not_tried_nil {task : Task} : ¬Tried table globals [] s task s' := by
  intro h
  generalize hnil : ([] : List Task) = rest at h
  induction h with
  | now h =>
    subst hnil
    cases h
  | later hround _ ih =>
    subst hnil
    obtain ⟨heq, _⟩ := ends_pure.mp hround
    cases heq
    exact ih rfl

/-- A function alone in a program that its first attempt finishes is tried only once. -/
theorem Tried.of_alone {task : Task} (h : Tried table globals [task] s task s')
    (hok : (endOf (inferFunction table globals task) s).1.isOk = true) : s = s' := by
  obtain ⟨stmt, hstmt⟩ := Outcome.exists_of_isOk hok
  cases h with
  | now h => exact (Prod.mk.inj (List.mem_singleton.mp h)).2.symm
  | later hround h =>
    have hends := ends_endOf (inferFunction table globals task) s
    rw [hstmt] at hends
    rcases ends_round_cons hround with ⟨_, heq, _⟩ |
      ⟨s₁, rest, _, hrest, ⟨_, _, heq⟩ | ⟨e, hpending, _⟩⟩
    · cases heq
    · obtain ⟨hrest, _⟩ := ends_pure.mp hrest
      subst hrest
      cases heq
      exact absurd h not_tried_nil
    · cases (hpending.unique hends).1

end Rounds

/-- A statement of the module before and after its assignments are bound. -/
inductive Tops (table : CallTable) : Stmt → Stmt → Prop
  | assign {line name value declared b} (binding : Binding)
    (hunknown : table.isKnown name = false) :
      Tops table (.assign line (.name name) value declared b)
        (.assign line (.name name) value declared binding)
  | other {stmt} (h : stmt.isAssign = false) : Tops table stmt stmt

section Modules

variable {table : CallTable} {s s' : State}

/-- A statement of the module that binds names declares a global and stays in the module. -/
theorem Binds.tops {fr fr' : Frame} {line : Nat} {target : Target} {value : Expr}
    {declared : Option Kind} {b : Binding} {stmt' : Stmt} {readings : List Reading}
    (hmodule : fr.scope.globals = none)
    (h : Binds table fr (.assign line target value declared b) stmt' fr' readings) :
    Tops table (.assign line target value declared b) stmt' := by
  cases h with
  | again hname => exact .assign _ hname.unknown
  | first kind hname => exact .assign _ hname.unknown
  | hoist kind hname => exact .assign _ hname.unknown
  | element hbody =>
    rw [Scope.isModule, hmodule] at hbody
    cases hbody
  | inert hstmt => cases hstmt

theorem inferGlobals_tops (htable : table.Sound) {stmts found : List Stmt}
    (hwf : s.frame.Wf table) (hmodule : s.frame.scope.globals = none)
    (h : Ends (inferGlobals table stmts) s (.ok found) s') :
    List.Forall₂ (Tops table) stmts found := by
  induction stmts generalizing s found with
  | nil =>
    obtain ⟨heq, _⟩ := ends_pure.mp h
    cases heq
    exact .nil
  | cons stmt stmts ih =>
    unfold inferGlobals at h
    cases stmt with
    | assign line target value declared b =>
      simp only [ends_bind_ok] at h
      obtain ⟨stmt', s₁, hhead, found', s₂, htail, hlast⟩ := h
      obtain ⟨heq, rfl⟩ := ends_pure.mp hlast
      cases heq
      have hwalks : Walks ⟨table, none⟩ s _ stmt' s₁ := inferStmt_walks htable _ hhead
      obtain ⟨readings, hbinds, _⟩ := hwalks
      obtain ⟨hwf₁, hextends⟩ := hbinds.extends hwf
      exact .cons (hbinds.tops hmodule) (ih hwf₁ (hextends.globals.trans hmodule) htail)
    | _ =>
      simp only [ends_bind_ok, ends_pure, Except.ok.injEq] at h
      obtain ⟨stmt', s₁, ⟨rfl, rfl⟩, found', s₂, htail, rfl, rfl⟩ := h
      exact .cons (.other rfl) (ih hwf hmodule htail)

theorem tasksOf_of_tops {stmts found : List Stmt} (h : List.Forall₂ (Tops table) stmts found) :
    tasksOf found = tasksOf stmts := by
  induction h with
  | nil => rfl
  | cons hhead _ ih =>
    simp only [tasksOf, List.filterMap_cons] at ih ⊢
    cases hhead with
    | assign => exact ih
    | other => rw [ih]

end Modules

section Parameters

variable {table : CallTable} {globals : Variables}

theorem inferFunction_keeps (htable : table.Sound) (task : Task) :
    Keeps (inferFunction table globals task) := by
  apply Keeps.get_bind
  intro s
  split
  · exact .fail
  · split
    · exact .throw
    · apply (Keeps.modifyFrame _).bind
      intro _
      have hbody : ∀ owner, Keeps (inferBlock ⟨table, owner⟩ task.body) :=
        fun _ => inferBlock_keeps htable task.body
      apply (hbody _).bind
      intro body
      apply Keeps.get_bind
      intro last
      apply Keeps.bind
      · apply Keeps.modify
        intro s
        apply Functions.alike_update
        · exact fun _ => rfl
        · exact fun _ _ => rfl
      · intro _
        exact (Keeps.emit _).bind fun _ => .pure _

theorem Keeps.attempt {α : Type} {x : Infer α} (hx : Keeps x) : Keeps (attempt x) := by
  intro s r s' h
  rcases ends_attempt h with ⟨_, _, hends⟩ | ⟨_, _, hends⟩ | ⟨_, _, hends⟩
  · exact hx s hends
  · exact hx s hends
  · exact hx s hends

theorem round_keeps (htable : table.Sound) (tasks : List Task) :
    Keeps (round table globals tasks) := by
  induction tasks with
  | nil => exact .pure _
  | cons task tasks ih =>
    apply (inferFunction_keeps htable task).attempt.bind
    intro result
    cases result with
    | ok stmt => exact ih.bind fun _ => .pure _
    | error e => exact ih.bind fun _ => .pure _

theorem attempts_alike (htable : table.Sound) {tasks : List Task} {task : Task} {s s' : State}
    (h : (task, s') ∈ attempts table globals tasks s) : s.functions.Alike s'.functions := by
  induction tasks generalizing s with
  | nil => cases h
  | cons first tasks ih =>
    rcases List.mem_cons.mp h with heq | hrest
    · cases heq
      exact .refl _
    · have hfirst : Keeps (attempt (inferFunction table globals first)) :=
        (inferFunction_keeps htable first).attempt
      exact (hfirst s (ends_endOf _ s)).trans (ih hrest)

theorem Tried.alike (htable : table.Sound) {tasks : List Task} {task : Task} {s s' : State}
    (h : Tried table globals tasks s task s') : s.functions.Alike s'.functions := by
  induction h with
  | now h => exact attempts_alike htable h
  | later hround _ ih => exact (round_keeps htable _ _ hround).trans ih

theorem inferGlobals_keeps (htable : table.Sound) (stmts : List Stmt) :
    Keeps (inferGlobals table stmts) := by
  induction stmts with
  | nil => exact .pure _
  | cons stmt stmts ih =>
    unfold inferGlobals
    cases stmt with
    | assign =>
      have hstmt : ∀ stmt, Keeps (inferStmt ⟨table, none⟩ stmt) := inferStmt_keeps htable
      apply (hstmt _).bind
      intro stmt'
      exact ih.bind fun _ => .pure _
    | _ =>
      apply (Keeps.pure _).bind
      intro stmt'
      exact ih.bind fun _ => .pure _

end Parameters

section Programs

variable {table : CallTable} {p p' : Program}

/-- What inference has done when it accepts a program. -/
theorem infer_ok (h : (infer table p).1 = .ok p') :
    ((tasksOf p.statements).map Task.name).Nodup ∧
      (∀ task ∈ tasksOf p.statements, table.isKnown task.name = false) ∧
      ∃ stmts finished last,
        Ends (inferGlobals table p.statements) (start p) (.ok stmts) (afterGlobals table p) ∧
        rounds table (globals table p) (tasksOf stmts) (afterGlobals table p) =
          (.ok finished, last) ∧
        p' = { p with statements := stmts.map (place finished) } := by
  rcases collect_cases table [] (tasksOf p.statements) with ⟨e, he, _⟩ | ⟨hok, hnodup, hnew⟩
  · simp [infer, he] at h
  rcases hmodule : endOf (inferModule table p.statements) (start p) with ⟨r, last⟩
  have hrun : (inferModule table p.statements).run
      ⟨(tasksOf p.statements).map fun task => .ofHead task.line task.head, .ofScope .module, []⟩ =
        (r, last) := hmodule
  simp only [infer, hok, List.nil_append, hrun] at h
  rcases r with stall | ⟨statements, count⟩
  · cases h
  · have hends : Ends (inferModule table p.statements) (start p) (.ok (statements, count)) last :=
      hmodule
    unfold inferModule at hends
    simp only [ends_bind_ok, ends_getScope, ends_pure, Except.ok.injEq, Prod.mk.injEq] at hends
    obtain ⟨stmts, _, hglobals, _, s₁, ⟨rfl, rfl⟩, finished, _, hrounds, ⟨rfl, rfl⟩, rfl⟩ := hends
    obtain rfl : s₁ = afterGlobals table p := (congrArg Prod.snd hglobals).symm
    exact ⟨hnodup, fun task htask => (hnew task htask).2, stmts, finished, last, hglobals, hrounds,
      (Except.ok.inj h).symm⟩

/-- In the run that makes `p'` of `p`, an attempt from the state `s` finishes the function, which
becomes `stmt` and stands in `p'`. -/
structure Settles (table : CallTable) (p p' : Program) (task : Task) (s : State) (stmt : Stmt) :
    Prop where
  tried : Tried table (globals table p) (tasksOf p.statements) (afterGlobals table p) task s
  ends : ∃ s', Ends (inferFunction table (globals table p) task) s (.ok stmt) s'
  placed : stmt ∈ p'.statements

/-- What inference makes of an accepted program. -/
structure Accepts (table : CallTable) (p p' : Program) : Prop where
  unknown : ∀ task ∈ tasksOf p.statements, table.isKnown task.name = false
  settled : ∀ task ∈ tasksOf p.statements, ∃ s stmt, Settles table p p' task s stmt
  tops : ∀ stmt' ∈ p'.statements,
    (∃ task ∈ tasksOf p.statements, ∃ s, Settles table p p' task s stmt') ∨
      stmt'.isFunction = false ∧ ∃ stmt ∈ p.statements, Tops table stmt stmt'

theorem infer_accepts (htable : table.Sound) (h : (infer table p).1 = .ok p') :
    Accepts table p p' := by
  obtain ⟨hnodup, hunknown, stmts, finished, last, hglobals, hrounds, rfl⟩ := infer_ok h
  have hstart : (Frame.ofScope .module).OfModule table := .start
  have htops := inferGlobals_tops htable hstart.wf rfl hglobals
  have htasks := tasksOf_of_tops htops
  rw [htasks] at hrounds
  have hplaced : ∀ {line head signature hoisted body},
      Stmt.function line head signature hoisted body ∈ stmts →
        ∃ task ∈ tasksOf p.statements, task = ⟨line, head, body⟩ ∧ ∃ s,
          Settles table p { p with statements := stmts.map (place finished) } task s
            (place finished (.function line head signature hoisted body)) := by
    intro line head signature hoisted body hstmt
    have htask : (⟨line, head, body⟩ : Task) ∈ tasksOf p.statements := by
      rw [← htasks]
      exact List.mem_filterMap.mpr ⟨_, hstmt, rfl⟩
    obtain ⟨s, s', htried, hends⟩ := (rounds_exhaust hrounds).place hnodup signature hoisted htask
    exact ⟨_, htask, rfl, s, htried, ⟨s', hends⟩, List.mem_map_of_mem hstmt⟩
  constructor
  · exact hunknown
  · intro task htask
    rw [← htasks] at htask
    obtain ⟨signature, hoisted, hstmt⟩ := mem_tasksOf htask
    obtain ⟨_, _, rfl, s, hsettles⟩ := hplaced hstmt
    exact ⟨s, _, hsettles⟩
  · intro stmt' hstmt'
    obtain ⟨stmt, hstmt, rfl⟩ := List.mem_map.mp hstmt'
    cases hfunction : stmt.isFunction with
    | true =>
      cases stmt with
      | function line head signature hoisted body =>
        obtain ⟨task, htask, _, s, hsettles⟩ := hplaced hstmt
        exact .inl ⟨task, htask, s, hsettles⟩
      | _ => cases hfunction
    | false =>
      rw [place_other hfunction]
      obtain ⟨source, hsource, htop⟩ := exists_of_forall₂ htops.flip hstmt
      exact .inr ⟨hfunction, source, hsource, htop⟩

/-- The names of the parameters of a function. -/
def Task.paramNames (task : Task) : List String := task.head.params.map Param.name

/-- A function that is settled has its parameters as in its header, each with a kind. -/
theorem Settles.slots (htable : table.Sound) (h : (infer table p).1 = .ok p') {task : Task}
    (htask : task ∈ tasksOf p.statements) {s : State} {stmt : Stmt}
    (hsettles : Settles table p p' task s stmt) :
    ∃ slots, s.functions.find? task.name = some slots ∧ slots.paramNames = task.paramNames := by
  obtain ⟨hnodup, _, stmts, _, _, hglobals, _, _⟩ := infer_ok h
  have halike := (inferGlobals_keeps htable p.statements _ hglobals).trans
    (hsettles.tried.alike htable)
  have hhead := halike task.name
  rw [show (start p).functions.find? task.name = _ from find?_heads hnodup htask,
    Option.map_some, Option.map_eq_some_iff] at hhead
  obtain ⟨slots, hslots, hnames⟩ := hhead
  refine ⟨slots, hslots, hnames.trans ?_⟩
  simp [Slots.paramNames, Slots.ofHead, Task.paramNames]

theorem Slots.length_paramKinds {slots : Slots} (h : slots.openParam? = none) :
    slots.paramKinds.length = slots.params.length := by
  have hsome := Slots.openParam?_eq_none.mp h
  unfold Slots.paramKinds
  generalize slots.params = params at hsome
  induction params with
  | nil => rfl
  | cons p params ih =>
    obtain ⟨⟨kind, hkind⟩, htail⟩ := List.forall_mem_cons.mp hsome
    rw [List.filterMap_cons_some hkind, List.length_cons, List.length_cons, ih htail]

/-- The attempt that settles a function goes through its body from a frame with all parameters, and
visits what the rules of binding read. -/
theorem Settles.walks (htable : table.Sound) (h : (infer table p).1 = .ok p') {task : Task}
    (htask : task ∈ tasksOf p.statements) {s : State} {stmt : Stmt}
    (hsettles : Settles table p p' task s stmt) : ∃ kinds returns body last readings,
      kinds.length = task.head.params.length ∧
      stmt = .function task.line task.head (some ⟨kinds, returns⟩) last.hoisted body ∧
      BindsAll table (task.start (globals table p) kinds) task.body body last readings ∧
      List.Forall₂ SameMeaning (task.visits table (globals table p) s) readings := by
  obtain ⟨slots, hslots, hnames⟩ := hsettles.slots htable h htask
  obtain ⟨s', hends⟩ := hsettles.ends
  obtain ⟨body, s₁, ⟨hopen, hbody⟩, hstmt, _⟩ := ends_inferFunction_ok hslots hends
  have hwalks : WalksAll (task.env table slots) _ task.body body s₁ :=
    inferBlock_walks htable _ hbody
  obtain ⟨readings, hbinds, hsees⟩ := hwalks
  refine ⟨slots.paramKinds, _, body, s₁.frame, readings, ?_, hstmt, hbinds, ?_⟩
  · have hlength := congrArg List.length hnames
    rw [Slots.paramNames, Task.paramNames, List.length_map, List.length_map] at hlength
    rw [Slots.length_paramKinds hopen, hlength]
  · rw [Task.visits, show s.functions.find? task.head.name = some slots from hslots]
    exact hsees

theorem Task.local?_start (task : Task) (globals : Variables) (kinds : List Kind) (x : String) :
    (task.start globals kinds).scope.local? x = (task.arguments kinds).lookup x := by
  simp [Task.start, Frame.ofScope, Task.bodyScope_eq, Scope.local?, Scope.isShared, Scope.function]

/-- Where a function starts its parameters are bound. -/
theorem Task.own_start {task : Task} {globals : Variables} {kinds : List Kind}
    (hlength : kinds.length = task.head.params.length) {x : String} (hx : x ∈ task.paramNames) :
    ∃ kind, (task.start globals kinds).scope.meaning x = .own kind := by
  obtain ⟨param, hparam, rfl⟩ := List.mem_map.mp hx
  have hzip := List.map_fst_zip (le_of_eq hlength.symm)
  rw [← hzip] at hparam
  obtain ⟨v, hv, rfl⟩ := List.mem_map.mp hparam
  have hsome : ((task.arguments kinds).lookup v.1.name).isSome = true := by
    apply List.lookup_isSome_iff.mpr
    exact ⟨_, List.mem_reverse.mpr (List.mem_map_of_mem hv), beq_self_eq_true _⟩
  obtain ⟨w, hw⟩ := Option.isSome_iff_exists.mp hsome
  exact ⟨w.kind, by rw [Scope.meaning_eq, task.local?_start, hw]⟩

/-- Where a function starts nothing else is bound. -/
theorem Task.argument_of_own {task : Task} {globals : Variables} {kinds : List Kind} {x : String}
    {kind : Kind} (h : (task.start globals kinds).scope.meaning x = .own kind) :
    (x, kind) ∈ task.paramNames.zip kinds := by
  rw [Scope.meaning_eq, task.local?_start] at h
  cases hlookup : (task.arguments kinds).lookup x with
  | none =>
    rw [hlookup] at h
    exact absurd h (Scope.outward_ne_own _ x kind)
  | some w =>
    rw [hlookup] at h
    obtain rfl : w.kind = kind := Meaning.own.inj h
    obtain ⟨_, _, harguments, _⟩ := List.lookup_eq_some_iff.mp hlookup
    have hw : (x, w) ∈ task.arguments kinds :=
      harguments ▸ List.mem_append_right _ List.mem_cons_self
    obtain ⟨entry, hentry, heq⟩ := List.mem_map.mp (List.mem_reverse.mp hw)
    obtain ⟨rfl, rfl⟩ := Prod.mk.inj heq
    rw [Task.paramNames, List.zip_map_left]
    exact List.mem_map.mpr ⟨entry, hentry, rfl⟩

theorem Task.param_of_own {task : Task} {globals : Variables} {kinds : List Kind} {x : String}
    {kind : Kind} (h : (task.start globals kinds).scope.meaning x = .own kind) :
    x ∈ task.paramNames := (List.of_mem_zip (Task.argument_of_own h)).1

end Programs

end Sketchwright.Inference
