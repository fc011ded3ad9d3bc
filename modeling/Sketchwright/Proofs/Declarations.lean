import Sketchwright.Proofs.Examination
import Sketchwright.Proofs.Turns

/-! What the names in an accepted program refer to, in any tree. A variable of a function is
declared in the resolved function with the kind that inference sees, one of the module in the
module, and the result of a function that is known somewhere is the one in its signature. -/

namespace Sketchwright

mutual

/-- The variables that a statement declares, in its blocks too. -/
def Stmt.declarations : Stmt → Context
  | .function _ head (some signature) hoisted body =>
    Context.inFunction (declarationsIn body) head signature hoisted
  | .conditional _ _ thenBody elseBody => declarationsIn thenBody ++ declarationsIn elseBody
  | .loop _ var _ binding body => (declarationsIn body).inLoop var binding
  | stmt => Context.after [] stmt

def declarationsIn : List Stmt → Context
  | [] => []
  | stmt :: stmts => stmt.declarations ++ declarationsIn stmts

end

namespace Inference

/-- The own variables that names refer to are among these, and so are the outer ones. -/
structure Refers (meaning : String → Meaning) (own outer : Context) : Prop where
  own : ∀ x kind, meaning x = .own kind → (x, kind) ∈ own
  outer : ∀ x kind, meaning x = .outer kind → (x, kind) ∈ outer

/-- The variables of a body itself are among these. -/
def Scope.Within (s : Scope) (declared : Context) : Prop :=
  ∀ x kind, s.meaning x = .own kind → (x, kind) ∈ declared

section Bodies

variable {table : CallTable} {declared : Context}

theorem Scope.Within.readAll {s : Scope} (h : s.Within declared) (names : List String) :
    (s.readAll names).Within declared := by
  intro x kind hm
  rw [Scope.meaning_readAll] at hm
  exact h x _ hm

theorem Frame.Wf.within_declare {fr : Frame} {name : String} {kind : Kind} (hwf : fr.Wf table)
    (line : Nat) (hfree : fr.scope.Free name) (h : fr.scope.Within declared)
    (hmem : (name, kind) ∈ declared) :
    (fr.declare name kind line).scope.Within declared := by
  intro x found hm
  rw [hwf.meaning_declare kind line hfree] at hm
  split at hm
  · next heq =>
    cases hm
    exact heq ▸ hmem
  · exact h x _ hm

theorem Frame.Extends.hoisted_subset {fr fr' : Frame} (h : fr.Extends fr') :
    fr.hoisted ⊆ fr'.hoisted := by
  obtain ⟨added, heq, _⟩ := h.hoisted
  rw [heq]
  exact List.subset_append_left _ _

mutual

/-- Wherever a statement reads, the variables of the body are those from before or declared in the
statement, or hoisted. -/
theorem Binds.within {fr fr' : Frame} {stmt stmt' : Stmt} {readings : List Reading}
    (h : Binds table fr stmt stmt' fr' readings) (hwf : fr.Wf table)
    (hfr : fr.scope.Within declared) (hstmt : stmt'.declarations ⊆ declared)
    (hhoisted : fr'.hoisted ⊆ declared) :
    (∀ reading ∈ readings, reading.scope.Within declared) ∧ fr'.scope.Within declared := by
  have hread : ∀ names, (fr.readAll names).scope.Within declared := fun names => hfr.readAll names
  cases h with
  | @again _ _ _ value =>
    exact ⟨List.forall_mem_cons.mpr ⟨hfr, List.forall_mem_singleton.mpr (hread value.vars)⟩,
      hread value.vars⟩
  | @first _ line name value _ _ kind _ hfree =>
    have hlast :=
      (hwf.readAll value.vars).1.within_declare line hfree (hread _) (hstmt List.mem_cons_self)
    exact ⟨List.forall_mem_cons.mpr ⟨hfr, List.forall_mem_singleton.mpr hlast⟩, hlast⟩
  | @hoist _ line name value _ _ kind _ hfree =>
    have hmem : (name, kind) ∈ declared := hhoisted (List.mem_append_right _ List.mem_cons_self)
    have hlast := (hwf.readAll value.vars).1.within_declare line hfree (hread _) hmem
    exact ⟨List.forall_mem_cons.mpr ⟨hfr, List.forall_mem_singleton.mpr hlast⟩, hlast⟩
  | @element _ _ list position value =>
    have hposition := hread (Expr.index list position).vars
    exact ⟨List.forall_mem_cons.mpr ⟨hfr, List.forall_mem_singleton.mpr hposition⟩,
      hposition.readAll value.vars⟩
  | @conditional _ _ condition _ _ _ _ _ _ _ _ hthen helse =>
    have hwf₁ := (hwf.readAll condition.vars).1.enter
    obtain ⟨hstmt₁, hstmt₂⟩ := List.append_subset.mp hstmt
    obtain ⟨hwf₂, hextends⟩ := hthen.extends hwf₁
    have hhoisted₁ := List.Subset.trans (helse.extends hwf₂).2.hoisted_subset hhoisted
    obtain ⟨hr₁, hd₁⟩ := hthen.within hwf₁ (hread condition.vars) hstmt₁ hhoisted₁
    obtain ⟨hr₂, hd₂⟩ := helse.within hwf₂ hd₁ hstmt₂ hhoisted
    exact ⟨List.forall_mem_cons.mpr ⟨hfr, List.forall_mem_append.mpr ⟨hr₁, hr₂⟩⟩, hd₂⟩
  | @loopAgain _ _ var bounds _ _ _ _ _ _ _ _ hloop =>
    have hwf₁ := (hwf.readAll (Expr.varsAll bounds.exprs)).1.enterLoop var
    obtain ⟨hr, hd⟩ := hloop.within hwf₁ (hread _) hstmt hhoisted
    refine ⟨List.forall_mem_append.mpr ⟨List.forall_mem_map.mpr fun _ _ => hfr, ?_⟩, hd⟩
    exact List.forall_mem_cons.mpr ⟨hread _, hr⟩
  | @loopFirst _ line var bounds _ _ _ last _ _ _ hfree hloop =>
    have hwf₁ := (hwf.readAll (Expr.varsAll bounds.exprs)).1
    have hwf₂ := (hwf₁.declare .int line hfree).1.enterLoop var
    obtain ⟨hvar, hbody⟩ := List.cons_subset.mp hstmt
    have hdeclared := hwf₁.within_declare line hfree (hread _) hvar
    obtain ⟨hr, hd⟩ := hloop.within hwf₂ hdeclared hbody hhoisted
    obtain ⟨hwf₃, hextends⟩ := hloop.extends hwf₂
    obtain ⟨_, _, hafter⟩ := hwf₁.afterDeclaringLoop hfree hwf₃ hextends
    refine ⟨List.forall_mem_append.mpr ⟨List.forall_mem_map.mpr fun _ _ => hfr, ?_⟩, ?_⟩
    · exact List.forall_mem_cons.mpr ⟨hdeclared, hr⟩
    · intro x kind hm
      rw [hafter] at hm
      split at hm
      · next heq => exact heq ▸ hread _ var kind hm
      · exact hd x kind hm
  | @expr _ _ value => exact ⟨List.forall_mem_singleton.mpr hfr, hread value.vars⟩
  | @give _ _ value => exact ⟨List.forall_mem_singleton.mpr hfr, hread value.vars⟩
  | bare | inert => exact ⟨List.forall_mem_nil _, hfr⟩
  | share hnames =>
    refine ⟨List.forall_mem_nil _, fun x kind hm => ?_⟩
    rw [Frame.meaning_share fun name hname => (hnames name hname).1] at hm
    exact hfr x kind hm

theorem BindsAll.within {fr fr' : Frame} {stmts stmts' : List Stmt} {readings : List Reading}
    (h : BindsAll table fr stmts stmts' fr' readings) (hwf : fr.Wf table)
    (hfr : fr.scope.Within declared) (hstmts : declarationsIn stmts' ⊆ declared)
    (hhoisted : fr'.hoisted ⊆ declared) :
    (∀ reading ∈ readings, reading.scope.Within declared) ∧ fr'.scope.Within declared := by
  cases h with
  | nil => exact ⟨List.forall_mem_nil _, hfr⟩
  | cons hhead htail =>
    obtain ⟨hstmts₁, hstmts₂⟩ := List.append_subset.mp hstmts
    obtain ⟨hwf₁, hextends⟩ := hhead.extends hwf
    have hhoisted₁ := List.Subset.trans (htail.extends hwf₁).2.hoisted_subset hhoisted
    obtain ⟨hr₁, hd₁⟩ := hhead.within hwf hfr hstmts₁ hhoisted₁
    obtain ⟨hr₂, hd₂⟩ := htail.within hwf₁ hd₁ hstmts₂ hhoisted
    exact ⟨List.forall_mem_append.mpr ⟨hr₁, hr₂⟩, hd₂⟩

end

end Bodies

section Scopes

variable {table : CallTable} {s : Scope} {own outer : Context}

theorem Scope.global_of_outer {x : String} {kind : Kind} (h : s.meaning x = .outer kind) :
    ∃ v, s.global? x = some v ∧ v.kind = kind := by
  unfold Scope.meaning at h
  split at h
  · cases h
  · split at h
    · next v hv =>
      split at h
      · exact ⟨v, hv, Meaning.outer.inj h⟩
      · cases h
    · cases h

theorem Scope.Within.refers (h : s.Within own)
    (houter : ∀ x v, s.global? x = some v → (x, v.kind) ∈ outer) :
    Refers s.meaning own outer := by
  refine ⟨h, fun x kind hm => ?_⟩
  obtain ⟨v, hv, rfl⟩ := Scope.global_of_outer hm
  exact houter x v hv

/-- What holds of readings holds of the visits that they agree with. -/
theorem refers_of_sameMeaning {visits : List Visit} {readings : List Reading}
    (hsees : List.Forall₂ SameMeaning visits readings)
    (h : ∀ reading ∈ readings, Refers reading.scope.meaning own outer) :
    ∀ visit ∈ visits, Refers visit.state.frame.scope.meaning own outer := by
  intro visit hvisit
  obtain ⟨reading, hreading, hsame⟩ := exists_of_forall₂ hsees hvisit
  rw [hsame.meaning]
  exact h reading hreading

end Scopes

section Modules

variable {table : CallTable} {p p' : Program} {declared : Context} {s s' : State}

theorem declaredIn_cons (stmt : Stmt) (stmts : List Stmt) :
    declaredIn (stmt :: stmts) = stmt.declared?.toList ++ declaredIn stmts := by
  cases h : stmt.declared? <;> simp [declaredIn, h]

theorem declarations_of_isAssign {stmt : Stmt} (h : stmt.isAssign = true) :
    stmt.declarations = stmt.declared?.toList := by
  cases stmt with
  | assign line target value annotated binding => cases target <;> cases binding <;> rfl
  | _ => cases h

/-- An assignment of the module stays one and leaves a frame of the module. -/
theorem Binds.ofModule {fr fr' : Frame} {line : Nat} {target : Target} {value : Expr}
    {annotated : Option Kind} {b : Binding} {stmt' : Stmt} {readings : List Reading}
    (hmodule : fr.OfModule table)
    (h : Binds table fr (.assign line target value annotated b) stmt' fr' readings) :
    stmt'.isAssign = true ∧ fr'.OfModule table := by
  obtain ⟨hwf, hextends⟩ := h.extends hmodule.wf
  cases h with
  | first =>
    exact ⟨rfl, hwf, hextends.globals.trans hmodule.globals, hextends.depth.trans hmodule.depth,
      hmodule.hoisted, hmodule.returned⟩
  | again _ hbody | element hbody => exact absurd hmodule.isModule (by simp [hbody])
  | hoist _ _ _ hdepth => exact absurd hmodule.depth hdepth
  | inert h => cases h

/-- What the assignments of the module refer to is declared in them. -/
theorem moduleVisits_refer (htable : table.Sound) {stmts found : List Stmt}
    (hmodule : s.frame.OfModule table) (h : Ends (inferGlobals table stmts) s (.ok found) s')
    (hs : s.frame.scope.Within declared) (hfound : declaredIn found ⊆ declared) :
    (∀ visit ∈ moduleVisits table s stmts, Refers visit.state.frame.scope.meaning declared []) ∧
      s'.frame.OfModule table ∧ s'.frame.scope.Within declared := by
  induction stmts generalizing s found with
  | nil =>
    obtain ⟨_, rfl⟩ := ends_pure.mp h
    exact ⟨List.forall_mem_nil _, hmodule, hs⟩
  | cons stmt stmts ih =>
    obtain ⟨stmt', found', s₁, rfl, hhead, htail⟩ := ends_inferGlobals_cons h
    unfold moduleVisits
    split at hhead
    · next hassign =>
      rw [if_pos hassign, hhead.after_eq]
      have hwalks : Walks ⟨table, none⟩ s stmt stmt' s₁ := inferStmt_walks htable stmt hhead
      obtain ⟨readings, hbinds, hsees⟩ := hwalks
      cases stmt with
      | assign line target value annotated b =>
        obtain ⟨hassign', hmodule₁⟩ := hbinds.ofModule hmodule
        rw [declaredIn_cons, ← declarations_of_isAssign hassign'] at hfound
        obtain ⟨hstmt', hfound'⟩ := List.append_subset.mp hfound
        obtain ⟨hr, hs₁⟩ := hbinds.within hmodule.wf hs hstmt' (by simp [hmodule₁.hoisted])
        obtain ⟨hrest, hlast⟩ := ih hmodule₁ htail hs₁ hfound'
        refine ⟨List.forall_mem_append.mpr
          ⟨refers_of_sameMeaning hsees fun reading hmem => ?_, hrest⟩, hlast⟩
        refine (hr reading hmem).refers fun x v hv => ?_
        simp [Scope.global?, hbinds.same_globals hmodule.wf reading hmem, hmodule.globals] at hv
      | _ => cases hassign
    · next hassign =>
      obtain ⟨rfl, rfl⟩ := hhead
      rw [if_neg hassign]
      rw [declaredIn_cons] at hfound
      exact ih hmodule htail hs (List.append_subset.mp hfound).2

/-- What the names in the assignments of an accepted module refer to is declared in the resolved
module, and so are the globals after them. -/
theorem module_refers (htable : table.Sound) (h : (infer table p).1 = .ok p') :
    (∀ visit ∈ moduleVisits table (start p) p.statements,
      Refers visit.state.frame.scope.meaning (declaredIn p'.statements) []) ∧
    ∀ x v, (globals table p).lookup x = some v → (x, v.kind) ∈ declaredIn p'.statements := by
  obtain ⟨_, _, stmts, finished, _, hglobals, _, rfl⟩ := infer_ok h
  have hplaced : declaredIn stmts ⊆ declaredIn (stmts.map (place finished)) := by
    intro v hv
    obtain ⟨stmt, hstmt, hdeclared⟩ := List.mem_filterMap.mp hv
    have hfunction : stmt.isFunction = false := by
      cases stmt with
      | function => cases hdeclared
      | _ => rfl
    exact List.mem_filterMap.mpr
      ⟨stmt, List.mem_map.mpr ⟨stmt, hstmt, place_other hfunction⟩, hdeclared⟩
  have hstart : (start p).frame.scope.Within (declaredIn (stmts.map (place finished))) := nofun
  obtain ⟨hvisits, hmodule, hlast⟩ := moduleVisits_refer htable .start hglobals hstart hplaced
  refine ⟨hvisits, fun x v hv => hlast x v.kind ?_⟩
  have hunshared : x ∉ (afterGlobals table p).frame.scope.shared := fun hmem => by
    cases (hmodule.wf.shared x hmem).1.symm.trans hv
  rw [Scope.meaning_eq, Scope.local?, if_neg (by simpa [Scope.isShared] using hunshared)]
  rw [show (afterGlobals table p).frame.scope.locals.lookup x = some v from hv]

end Modules

section Functions

variable {table : CallTable} {p p' : Program} {task : Task} {s : State} {stmt : Stmt}

/-- What the names in a settled function refer to is declared in the resolved
function or in the module. -/
theorem Settles.refers (htable : table.Sound) (h : (infer table p).1 = .ok p')
    (htask : task ∈ tasksOf p.statements) (hsettles : Settles table p p' task s stmt) :
    ∀ visit ∈ task.visits table (globals table p) s,
      Refers visit.state.frame.scope.meaning stmt.declarations (declaredIn p'.statements) := by
  obtain ⟨kinds, returns, body, last, readings, _, rfl, hbinds, hsees⟩ :=
    hsettles.walks htable h htask
  obtain ⟨hhead, hbody⟩ := List.append_subset.mp
    (List.Subset.refl (task.paramNames.zip kinds ++ last.hoisted ++ declarationsIn body))
  obtain ⟨hparams, hhoisted⟩ := List.append_subset.mp hhead
  have hstart : (task.start (globals table p) kinds).scope.Within
      (task.paramNames.zip kinds ++ last.hoisted ++ declarationsIn body) :=
    fun x kind hown => hparams (Task.argument_of_own hown)
  obtain ⟨hr, _⟩ := hbinds.within Task.start_wf hstart hbody hhoisted
  refine refers_of_sameMeaning hsees fun reading hmem => (hr reading hmem).refers fun x v hv => ?_
  have hglobals : reading.scope.globals = some (globals table p) := by
    rw [hbinds.same_globals Task.start_wf reading hmem]
    simp [Task.start, Frame.ofScope, Task.bodyScope_eq, Scope.function]
  rw [Scope.global?, hglobals] at hv
  exact (module_refers htable h).2 x v hv

end Functions

section Results

variable {table : CallTable} {globals : Variables} {task : Task} {tasks : List Task}
  {s s' s₁ s₂ : State}

/-- What an attempt at a function leaves is kept to the end of its round. -/
theorem attempts_kept (h : (task, s₁) ∈ attempts table globals tasks s) {progress : Progress}
    (hround : Ends (round table globals tasks) s (.ok progress) s') {r : Except Stall Stmt}
    (hends : Ends (inferFunction table globals task) s₁ r s₂) :
    s₂.functions.Evolves s'.functions := by
  induction tasks generalizing s progress with
  | nil => cases h
  | cons first tasks ih =>
    rcases ends_round_cons hround with ⟨_, heq, _⟩ | ⟨s₃, rest, hattempts, hrest, hfirst⟩
    · cases heq
    rw [hattempts] at h
    have hlater : ∃ p, rest = .ok p := by
      rcases hfirst with ⟨_, _, heq⟩ | ⟨_, _, heq⟩
      · obtain ⟨p, hp, _⟩ := Outcome.map_eq_ok.mp heq.symm
        exact ⟨p, hp⟩
      · obtain ⟨p, hp, _⟩ := Outcome.map_eq_ok.mp heq.symm
        exact ⟨p, hp⟩
    obtain ⟨p, rfl⟩ := hlater
    rcases List.mem_cons.mp h with heq | h
    · cases heq
      have hs₃ : s₂ = s₃ := by
        rcases hfirst with ⟨_, hfinishes, _⟩ | ⟨_, hstalls, _⟩
        · exact (hends.unique hfinishes).2
        · exact (hends.unique hstalls).2
      exact hs₃ ▸ round_evolves tasks hrest
    · exact ih h hrest

/-- What an attempt at a function leaves is kept to the end of a run that ends well. -/
theorem Tried.kept (h : Tried table globals tasks s task s₁) {finished : List (String × Stmt)}
    (hrounds : rounds table globals tasks s = (.ok finished, s')) {r : Except Stall Stmt}
    (hends : Ends (inferFunction table globals task) s₁ r s₂) :
    s₂.functions.Evolves s'.functions := by
  fun_induction rounds table globals tasks s generalizing finished s' with
  | case1 tasks s stall s₃ hround => cases hrounds
  | case2 tasks s p s₃ hround hblocker =>
    cases hrounds
    cases h with
    | now hattempt => exact attempts_kept hattempt hround hends
    | later hround' h =>
      obtain ⟨heq, rfl⟩ := Ends.unique hround hround'
      cases heq
      rw [(round_attains hround).blocker hblocker] at h
      exact absurd h not_tried_nil
  | case3 tasks s p s₃ hround blocker hblocker hlt more last hmore ih =>
    obtain ⟨heq, rfl⟩ := Prod.mk.inj hrounds
    obtain ⟨rest, rfl, -⟩ := Outcome.map_eq_ok.mp heq
    cases h with
    | now hattempt => exact (attempts_kept hattempt hround hends).trans (rounds_evolve hmore)
    | later hround' h =>
      obtain ⟨heq, rfl⟩ := Ends.unique hround hround'
      cases heq
      exact ih h hmore
  | case4 tasks s p s₃ hround blocker hblocker => cases hrounds

theorem Functions.Evolves.result {fs gs : Functions} (h : fs.Evolves gs) {name : String}
    {kind : Kind} (hresult : fs.result? name = some (some kind)) :
    gs.result? name = some (some kind) := by
  obtain ⟨slots, hslots, hreturns⟩ := Option.map_eq_some_iff.mp hresult
  obtain ⟨slots', hslots', hgrows⟩ := h.grows.some hslots
  rw [result?, hslots', Option.map_some]
  rcases hgrows.returns with hnone | heq
  · cases hnone.symm.trans hreturns
  · exact congrArg some (heq.trans hreturns)

/-- A function that is finished has the result that its signature says. -/
theorem inferFunction_result {stmt : Stmt}
    (hends : Ends (inferFunction table globals task) s (.ok stmt) s') :
    ∃ signature hoisted body, stmt = .function task.line task.head (some signature) hoisted body ∧
      s'.functions.result? task.name = some (some signature.returns) := by
  cases hslots : s.functions.find? task.head.name with
  | none =>
    unfold inferFunction at hends
    rw [ends_get_bind, hslots] at hends
    cases (ends_fail.mp hends).1
  | some slots =>
    obtain ⟨body, s₁, hbody, hstmt, hfunctions⟩ := ends_inferFunction_ok hslots hends
    obtain ⟨t, ht, _⟩ := hbody.fills.grows.some hslots
    refine ⟨_, _, body, hstmt, ?_⟩
    rw [hfunctions, Functions.result?, Functions.find?_update _ _ _ (fun slots' => { slots' with
      returns := some (resultKind slots s₁.frame) }) fun _ => rfl, Task.name, if_pos rfl, ht]
    rfl

end Results

section Signatures

variable {table : CallTable} {p p' : Program} {task : Task} {s : State} {stmt : Stmt}
  {callee : String}

/-- What is known of the functions of a program when its rounds are over. -/
def lastFunctions (table : CallTable) (p : Program) : Functions :=
  (rounds table (globals table p) (tasksOf p.statements) (afterGlobals table p)).2.functions

theorem start_evolves (h : (infer table p).1 = .ok p') :
    (start p).functions.Evolves (lastFunctions table p) := by
  obtain ⟨_, _, _, _, _, hglobals, _⟩ := infer_ok h
  have hfills : (start p).functions.Fills (afterGlobals table p).functions :=
    (inherited_fills.inferGlobals p.statements :
      Relates _ (inferGlobals table p.statements)) hglobals
  exact hfills.toEvolves.trans (rounds_evolve rfl)

/-- What the attempt that settles a function starts from and what it finds
out is known in the end. -/
theorem Settles.kept (h : (infer table p).1 = .ok p') (hsettles : Settles table p p' task s stmt) :
    s.functions.Evolves (lastFunctions table p) ∧
      ∃ signature hoisted body, stmt = .function task.line task.head (some signature) hoisted body ∧
        (lastFunctions table p).result? task.name = some (some signature.returns) := by
  obtain ⟨_, _, stmts, finished, last, hglobals, hrounds, _⟩ := infer_ok h
  rw [tasksOf_inferGlobals hglobals] at hrounds
  obtain ⟨s', hends⟩ := hsettles.ends
  have hkept : s'.functions.Evolves (lastFunctions table p) := by
    rw [lastFunctions, hrounds]
    exact hsettles.tried.kept hrounds hends
  obtain ⟨signature, hoisted, body, hstmt, hresult⟩ := inferFunction_result hends
  exact ⟨(inferFunction_evolves hends).trans hkept, signature, hoisted, body, hstmt,
    hkept.result hresult⟩

/-- A function that is known somewhere is one of the tasks of the program. -/
theorem task_of_result (h : (infer table p).1 = .ok p') {fs : Functions}
    (hkept : fs.Evolves (lastFunctions table p)) {result : Option Kind}
    (hresult : fs.result? callee = some result) :
    ∃ task ∈ tasksOf p.statements, task.name = callee := by
  obtain ⟨slots, hslots, _⟩ := Option.map_eq_some_iff.mp hresult
  obtain ⟨last, hlast, _⟩ := hkept.grows.some hslots
  cases hstart : (start p).functions.find? callee with
  | none => cases ((start_evolves h).grows.none hstart).symm.trans hlast
  | some slots =>
    obtain ⟨task, htask, hname, _⟩ := mem_of_find?_heads hstart
    exact ⟨task, htask, hname⟩

/-- Its name is none of the runtime. -/
theorem unknown_of_result (htable : table.Sound) (h : (infer table p).1 = .ok p') {fs : Functions}
    (hkept : fs.Evolves (lastFunctions table p)) {result : Option Kind}
    (hresult : fs.result? callee = some result) :
    table.isKnown callee = false := by
  obtain ⟨task, htask, rfl⟩ := task_of_result h hkept hresult
  exact (infer_accepts htable h).unknown task htask

/-- A result that is known somewhere is the one in the signature of the function. -/
theorem signature_of_result (htable : table.Sound) (h : (infer table p).1 = .ok p') {fs : Functions}
    (hkept : fs.Evolves (lastFunctions table p)) {kind : Kind}
    (hknown : fs.result? callee = some (some kind)) :
    ∃ signature, p'.signatures callee = some signature ∧ signature.returns = kind := by
  obtain ⟨task, htask, hname⟩ := task_of_result h hkept hknown
  have hresult := hkept.result hknown
  obtain ⟨s, stmt, hsettles⟩ := (infer_accepts htable h).settled task htask
  have hsome : (p'.signatures callee).isSome = true := by
    obtain ⟨_, signature, hoisted, body, rfl, _⟩ := hsettles.kept h
    exact List.findSome?_isSome_iff.mpr ⟨_, hsettles.placed, by simp [← hname, Task.name]⟩
  obtain ⟨signature, hsignature⟩ := Option.isSome_iff_exists.mp hsome
  refine ⟨signature, hsignature, ?_⟩
  obtain ⟨stmt, hstmt, hfound⟩ := List.exists_of_findSome?_eq_some hsignature
  rcases (infer_accepts htable h).tops stmt hstmt with ⟨other, _, s, hsettles⟩ | ⟨hfunction, _⟩
  · obtain ⟨_, found, hoisted, body, rfl, hlast⟩ := hsettles.kept h
    obtain ⟨hother, heq⟩ : other.name = callee ∧ found = signature := by
      simpa [Task.name] using hfound
    rw [hother, hresult, heq] at hlast
    simpa using hlast.symm
  · cases stmt with
    | function => cases hfunction
    | _ => cases hfound

end Signatures

end Inference

end Sketchwright
