import Sketchwright.Proofs.Soundness
import Sketchwright.Proofs.Visits

/-! Names of resolved programs. With block scopes every name of a resolved program is found in a
declaration that precedes it, of the kind that the inferencer used, and no scope declares a name
twice. -/

namespace Sketchwright

open Inference

mutual

/-- The variables of the loops in a statement. -/
def Stmt.loopVars : Stmt → List String
  | .function _ _ _ _ body => loopVarsIn body
  | .conditional _ _ thenBody elseBody => loopVarsIn thenBody ++ loopVarsIn elseBody
  | .loop _ var _ _ body => var :: loopVarsIn body
  | _ => []

def loopVarsIn : List Stmt → List String
  | [] => []
  | stmt :: stmts => stmt.loopVars ++ loopVarsIn stmts

end

def Program.loopVars (p : Program) : List String := loopVarsIn p.statements

/-- The blocks of a statement, each a scope of its own. -/
def Stmt.blocks : Stmt → List (List Stmt)
  | .conditional _ _ thenBody elseBody => [thenBody, elseBody]
  | .loop _ _ _ _ body => [body]
  | _ => []

mutual

theorem Stmt.loopVars_bare (stmt : Stmt) : stmt.bare.loopVars = stmt.loopVars := by
  cases stmt with
  | function | loop => simp only [Stmt.bare, Stmt.loopVars, loopVarsIn_bareAll]
  | conditional => simp only [Stmt.bare, Stmt.loopVars, loopVarsIn_bareAll]
  | _ => rfl

theorem loopVarsIn_bareAll (stmts : List Stmt) : loopVarsIn (bareAll stmts) = loopVarsIn stmts := by
  cases stmts with
  | nil => rfl
  | cons stmt stmts =>
    rw [bareAll, loopVarsIn, loopVarsIn, stmt.loopVars_bare, loopVarsIn_bareAll]

end

theorem Program.loopVars_bare (p : Program) : p.bare.loopVars = p.loopVars :=
  loopVarsIn_bareAll p.statements

mutual

theorem loopVars_of_mem_occurrences {context : Context} {stmt : Stmt} {o : Occurrence}
    (ho : o ∈ stmt.occurrences context) : o.stmt.loopVars ⊆ stmt.loopVars := by
  cases stmt with
  | conditional line condition thenBody elseBody =>
    rcases List.mem_cons.mp ho with rfl | ho
    · exact List.Subset.refl _
    · rcases List.mem_append.mp ho with ho | ho
      · exact List.subset_append_of_subset_left _ (loopVars_of_mem_occurrencesIn ho)
      · exact List.subset_append_of_subset_right _ (loopVars_of_mem_occurrencesIn ho)
  | loop line var bounds binding body =>
    rcases List.mem_cons.mp ho with rfl | ho
    · exact List.Subset.refl _
    · exact List.subset_cons_of_subset _ (loopVars_of_mem_occurrencesIn ho)
  | _ =>
    obtain rfl := List.mem_singleton.mp ho
    exact List.Subset.refl _

theorem loopVars_of_mem_occurrencesIn {context : Context} {stmts : List Stmt} {o : Occurrence}
    (ho : o ∈ occurrencesIn context stmts) : o.stmt.loopVars ⊆ loopVarsIn stmts := by
  cases stmts with
  | nil => cases ho
  | cons stmt stmts =>
    rcases List.mem_append.mp ho with ho | ho
    · exact List.subset_append_of_subset_left _ (loopVars_of_mem_occurrences ho)
    · exact List.subset_append_of_subset_right _ (loopVars_of_mem_occurrencesIn ho)

end

theorem Definition.loopVars_subset {p : Program} {d : Definition} (hd : d ∈ p.definitions)
    {o : Occurrence} (ho : o ∈ d.occurrences) : o.stmt.loopVars ⊆ p.loopVars := by
  obtain ⟨outer, houter, hdefinition⟩ := List.mem_filterMap.mp hd
  obtain ⟨_, hstmt⟩ := Occurrence.definition?_eq_some.mp hdefinition
  have hsubset := loopVars_of_mem_occurrencesIn houter
  rw [hstmt] at hsubset
  exact List.Subset.trans (loopVars_of_mem_occurrencesIn ho) hsubset

namespace Inference

/-- The visits of an attempt at a function that starts in the state `s`. -/
def Task.visits (task : Task) (table : CallTable) (globals : Variables) (s : State) : List Visit :=
  match s.functions.find? task.head.name with
  | none => []
  | some slots => visitsAll (task.env table slots)
      { s with frame := .ofScope (bodyScope globals task slots.paramKinds) } task.body

/-- The visits of the assignments of a module. -/
def moduleVisits (table : CallTable) (s : State) : List Stmt → List Visit
  | [] => []
  | stmt :: stmts =>
    if stmt.isAssign then
      visits ⟨table, none⟩ s stmt ++
        moduleVisits table (after (inferStmt ⟨table, none⟩ stmt) s) stmts
    else moduleVisits table s stmts

/-- The names of a visit are found in declarations that precede the site in the resolved program, or
are constants of the runtime, with the kinds that the inferencer gives them there, whatever else the
expression reads before them. -/
structure Found (table : CallTable) (visit : Visit) (site : Site) : Prop where
  expr : site.expr = visit.expr
  kinds : ∀ x ∈ visit.expr.vars, ∃ kind, site.kind? table x = some kind ∧
    ∀ names s, s.frame = visit.state.frame.readAll names → ∀ owner line,
      (endOf (resolve ⟨table, owner⟩ x line) s).1 = .ok kind

theorem resolve_of_kind? (env : Env) {s : State} {x : String} {kind : Kind} (line : Nat)
    (h : s.frame.scope.kind? env.table x = some kind) :
    (endOf (resolve env x line) s).1 = .ok kind := by
  have hends : ∃ s', Ends (resolve env x line) s (.ok kind) s' := by
    unfold Scope.kind? at h
    simp only [resolve, ends_bind_ok, ends_getScope, Except.ok.injEq]
    cases hm : s.frame.scope.meaning x with
    | own k =>
      simp only [hm, Option.some.injEq] at h
      exact ⟨s, _, s, ⟨rfl, rfl⟩, by rw [hm, h]; rfl⟩
    | outer k =>
      simp only [hm, Option.some.injEq] at h
      refine ⟨{ s with frame := { s.frame with scope := s.frame.scope.markSeen x } }, _, s,
        ⟨rfl, rfl⟩, ?_⟩
      simp only [hm, h, ends_bind_ok, ends_modifyScope, ends_pure]
      exact ⟨(), _, ⟨trivial, rfl⟩, trivial, rfl⟩
    | later defined => simp [hm] at h
    | missing =>
      simp only [hm] at h
      exact ⟨s, _, s, ⟨rfl, rfl⟩, by rw [hm, h]; rfl⟩
  obtain ⟨s', hends⟩ := hends
  exact congrArg Prod.fst hends

theorem Sees.found {table : CallTable} {visit : Visit} {reading : Reading} {site : Site}
    (hsees : Sees table visit reading) (hmatches : Matches table reading site)
    (hdeclaring : ∀ x, site.declaring = some x → table.constant? x = none) :
    Found table visit site := by
  refine ⟨hmatches.expr.trans hsees.expr.symm, fun x hx => ?_⟩
  rw [hsees.expr] at hx
  obtain ⟨kind, hscope, hcontext⟩ := hmatches.kinds x hx
  have hvisible : site.declaring ≠ some x := by
    intro hsite
    have hsome := hmatches.declaring x hx hsite
    rw [hdeclaring x hsite] at hsome
    cases hsome
  rw [← hsees.kinds] at hscope
  refine ⟨kind, by rw [Site.kind?, if_neg hvisible, hcontext], fun names s hs owner line => ?_⟩
  refine resolve_of_kind? ⟨table, owner⟩ line ?_
  rw [hs, Frame.readAll, Scope.kind?_readAll]
  exact hscope

theorem found_of_sees {table : CallTable} {seen : List Visit} {readings : List Reading}
    {sites : List Site} (hsees : List.Forall₂ (Sees table) seen readings)
    (hmatches : List.Forall₂ (Matches table) readings sites)
    (hdeclaring : ∀ site ∈ sites, ∀ x, site.declaring = some x → table.constant? x = none) :
    List.Forall₂ (Found table) seen sites := by
  induction hsees generalizing sites with
  | nil =>
    cases hmatches
    exact .nil
  | cons hhead _ ih =>
    cases hmatches with
    | cons hmatch htail =>
      obtain ⟨hsite, hsites⟩ := List.forall_mem_cons.mp hdeclaring
      exact .cons (hhead.found hmatch hsite) (ih htail hsites)

/-- An expression stands in a declaration of a name that the runtime does not know, if that goes
for the loop variables. -/
theorem constant?_of_declaring {c : Callees} {result : Result} {o : Occurrence}
    (htyped : o.stmt.Typed c result o.context)
    (hloops : ∀ var ∈ o.stmt.loopVars, c.table.constant? var = none) {site : Site}
    (hsite : site ∈ o.sites) {x : String} (hx : site.declaring = some x) :
    c.table.constant? x = none := by
  obtain ⟨context, stmt⟩ := o
  cases htyped with
  | declare _ _ hname =>
    simp only [Occurrence.sites, List.mem_cons, List.not_mem_nil, or_false] at hsite
    rcases hsite with rfl | rfl
    · cases hx
      exact (CallTable.call?_of_not_known hname).2
    · cases hx
  | loop _ hvar =>
    simp only [Occurrence.sites, List.mem_append, List.mem_map, List.mem_singleton] at hsite
    rcases hsite with ⟨_, _, rfl⟩ | rfl
    · rcases hvar with rfl | ⟨rfl, _⟩
      · cases hx
        exact hloops _ List.mem_cons_self
      · cases hx
    · cases hx
  | assign | element =>
    simp only [Occurrence.sites, List.mem_cons, List.not_mem_nil, or_false] at hsite
    rcases hsite with rfl | rfl <;> cases hx
  | conditional | call | expr | give =>
    obtain rfl := List.mem_singleton.mp hsite
    cases hx
  | bare | share => cases hsite
  | inert hstmt =>
    cases stmt with
    | comment | blank | pass | stop | skip => cases hsite
    | _ => cases hstmt

mutual

/-- Inside blocks no statement declares a name. -/
theorem Resolves.blocks {c : Callees} {returns : Option Kind} {fr fr' : Frame} {stmt stmt' : Stmt}
    {readings : List Reading} (h : Resolves c returns fr stmt stmt' fr' readings) :
    fr'.depth = fr.depth ∧ (fr.depth ≠ 0 → stmt'.declared? = none) ∧
      ∀ context, ∀ o ∈ stmt'.occurrences context, ∀ block ∈ o.stmt.blocks,
        declaredIn block = [] := by
  cases h with
  | first _ _ _ _ hdepth =>
    refine ⟨rfl, fun hne => absurd hdepth hne, fun _ o ho => ?_⟩
    obtain rfl := List.mem_singleton.mp ho
    exact fun _ h => (nomatch h)
  | again | hoist | element | call | expr | give | bare | share =>
    refine ⟨rfl, fun _ => rfl, fun _ o ho => ?_⟩
    obtain rfl := List.mem_singleton.mp ho
    exact fun _ h => (nomatch h)
  | conditional _ _ hthen helse =>
    obtain ⟨hdepth₁, hnone₁, hblocks₁⟩ := hthen.blocks
    obtain ⟨hdepth₂, hnone₂, hblocks₂⟩ := helse.blocks
    refine ⟨by simp [Frame.leave, hdepth₂, hdepth₁, Frame.enter, Frame.read, Frame.readAll],
      fun _ => rfl, fun context o ho => ?_⟩
    rcases List.mem_cons.mp ho with rfl | ho
    · refine List.forall_mem_cons.mpr ⟨hnone₁ (Nat.succ_ne_zero _), ?_⟩
      refine List.forall_mem_singleton.mpr (hnone₂ ?_)
      rw [hdepth₁]
      exact Nat.succ_ne_zero _
    · rcases List.mem_append.mp ho with ho | ho
      · exact hblocks₁ _ o ho
      · exact hblocks₂ _ o ho
  | loopAgain _ _ _ hloop | loopFirst _ _ _ hloop =>
    obtain ⟨hdepth, hnone, hblocks⟩ := hloop.blocks
    refine ⟨?_, fun _ => rfl, fun context o ho => ?_⟩
    · simp [Frame.afterLoop, Frame.leaveLoop, Frame.leave, hdepth, Frame.enterLoop, Frame.enter,
        Frame.readAll, Frame.declare]
    · rcases List.mem_cons.mp ho with rfl | ho
      · exact List.forall_mem_singleton.mpr (hnone (Nat.succ_ne_zero _))
      · exact hblocks _ o ho
  | inert hstmt =>
    cases stmt with
    | comment | blank | pass | stop | skip =>
      refine ⟨rfl, fun _ => rfl, fun _ o ho => ?_⟩
      obtain rfl := List.mem_singleton.mp ho
      exact fun _ h => (nomatch h)
    | _ => cases hstmt

theorem ResolvesAll.blocks {c : Callees} {returns : Option Kind} {fr fr' : Frame}
    {stmts stmts' : List Stmt} {readings : List Reading}
    (h : ResolvesAll c returns fr stmts stmts' fr' readings) :
    fr'.depth = fr.depth ∧ (fr.depth ≠ 0 → declaredIn stmts' = []) ∧
      ∀ context, ∀ o ∈ occurrencesIn context stmts', ∀ block ∈ o.stmt.blocks,
        declaredIn block = [] := by
  cases h with
  | nil => exact ⟨rfl, fun _ => rfl, fun _ _ ho => (nomatch ho)⟩
  | cons hhead htail =>
    obtain ⟨hdepth, hnone, hblocks⟩ := hhead.blocks
    obtain ⟨hdepth', hnone', hblocks'⟩ := htail.blocks
    refine ⟨hdepth'.trans hdepth, fun hne => ?_, fun context o ho => ?_⟩
    · rw [declaredIn, List.filterMap_cons_none (hnone hne)]
      exact hnone' (hdepth ▸ hne)
    · rcases List.mem_append.mp ho with ho | ho
      · exact hblocks context o ho
      · exact hblocks' _ o ho

end

theorem ResolvesTask.blocks {c : Callees} {globals : Variables} {task : Task} {d : Definition}
    {readings : List Reading} (h : ResolvesTask c globals task d.stmt readings) :
    ∀ o ∈ d.occurrences, ∀ block ∈ o.stmt.blocks, declaredIn block = [] := by
  obtain ⟨context, line, head, signature, hoisted, body⟩ := d
  cases h with
  | intro _ _ hbody => exact hbody.blocks.2.2 _

section Runs

variable {table : CallTable}

/-- The visits of the attempt that finished a function are the readings of its body. -/
theorem Finishes.visits_sees {globals : Variables} {task : Task} {stmt : Stmt} {last : Functions}
    {s s' : State} (h : Finishes table globals task stmt last s s') (htable : table.Sound)
    (hglobals : ∀ v ∈ globals, v.2.kind.isStorable = true) (hplain : arePlain task.body = true)
    {signatures : Signatures} (hfits : last.Fits signatures) {readings : List Reading}
    (hresolves : ResolvesTask ⟨table, signatures⟩ globals task stmt readings) :
    List.Forall₂ (Sees table) (task.visits table globals s) readings := by
  obtain ⟨slots, hslots, hreturns⟩ := h.awaits
  obtain ⟨body, s₁, hrun, _, hfunctions⟩ := ends_inferFunction_ok hslots h.ends
  obtain ⟨hsettle, slots', hfind, hgrows, _⟩ :=
    hrun.settles htable hglobals hplain h.proper hslots hreturns hfunctions
  have hfits' := hfits.of_grows h.grows
  cases hresolves with
  | intro hsig _ hbody =>
    obtain ⟨signature, hsig', hfit⟩ := hfits'.some hfind
    cases hsig.symm.trans hsig'
    rw [Slots.paramKinds_eq (hfit.of_grows hgrows) hrun.1, ← hreturns] at hbody
    have hproper : State.Proper { s with frame := task.start globals slots.paramKinds } :=
      ⟨h.proper, Task.start_proper hglobals (Slots.paramKinds_scalar (h.proper hslots))⟩
    simp only [Task.visits, hslots]
    have howner : (task.env table slots).owner =
        some ⟨task.head.name, task.head.isEntry, slots.returns⟩ := rfl
    exact visitsAll_sees htable howner task.body hplain hproper hrun.2
      (hfits'.of_grows hsettle.grows) hbody

theorem ends_inferGlobals_cons {stmt : Stmt} {stmts found : List Stmt} {s s' : State}
    (h : Ends (inferGlobals table (stmt :: stmts)) s (.ok found) s') :
    ∃ stmt' found' s₁, found = stmt' :: found' ∧
      (if stmt.isAssign then Ends (inferStmt ⟨table, none⟩ stmt) s (.ok stmt') s₁
        else stmt' = stmt ∧ s₁ = s) ∧
      Ends (inferGlobals table stmts) s₁ (.ok found') s' := by
  unfold inferGlobals at h
  cases stmt with
  | assign =>
    simp only [ends_bind_ok] at h
    obtain ⟨stmt₁, s₁, hfirst, found₁, s₂, hrest, hpure⟩ := h
    obtain ⟨heq, rfl⟩ := ends_pure.mp hpure
    exact ⟨stmt₁, found₁, s₁, Except.ok.inj heq, hfirst, hrest⟩
  | _ =>
    simp only [ends_bind_ok, ends_pure, Except.ok.injEq] at h
    obtain ⟨stmt₁, s₁, hfirst, found₁, s₂, hrest, hfound, rfl⟩ := h
    exact ⟨stmt₁, found₁, s₁, hfound, hfirst, hrest⟩

/-- The visits of the assignments of a module are their readings. -/
theorem moduleVisits_sees (htable : table.Sound) {stmts : List Stmt}
    (hlevel : ∀ stmt ∈ stmts, stmt.isModuleLevel = true) {s s' : State} (hs : s.Proper)
    (hmodule : s.frame.OfModule table) {found : List Stmt}
    (hends : Ends (inferGlobals table stmts) s (.ok found) s') {signatures : Signatures}
    (hfits : s'.functions.Fits signatures) {fr : Frame} {stmts' : List Stmt}
    {readings : List Reading}
    (h : ResolvesModule ⟨table, signatures⟩ s.frame stmts stmts' fr readings) :
    List.Forall₂ (Sees table) (moduleVisits table s stmts) readings := by
  induction stmts generalizing s found stmts' readings with
  | nil =>
    cases h
    exact .nil
  | cons stmt stmts ih =>
    obtain ⟨hhead, htail⟩ := List.forall_mem_cons.mp hlevel
    obtain ⟨stmt₁, found₁, s₁, -, hfirst, hrest⟩ := ends_inferGlobals_cons hends
    cases h with
    | @assign _ line name value declared b kind _ _ _ head _ hhead' htail' =>
      replace hfirst :=
        (if_pos (show (Stmt.assign line (.name name) value declared b).isAssign = true
        from rfl)).mp hfirst
      have hruns := inferGlobal_runs htable hs hmodule line (.name name) value declared b
      obtain ⟨_, _, htarget, _, _, hproper, hmodule₁, hrules⟩ := hruns.ok hfirst
      cases htarget
      have hs₁ : s₁.Proper := ⟨(hruns.effect hfirst).proper hs.functions, hproper⟩
      have hfits₁ := hfits.of_grows
        ((inferGlobals_runs htable stmts htail hs₁ hmodule₁).effect hrest).grows
      obtain ⟨_, hresolves⟩ := hrules hfits₁
      obtain ⟨_, hframe, _⟩ := hresolves.unique _ hhead'
      rw [← hframe] at htail'
      rw [moduleVisits, if_pos (by rfl), hfirst.after_eq]
      refine List.rel_append ?_ (ih htail hs₁ hmodule₁ hrest htail')
      simp only [inferStmt, ends_bind_ok] at hfirst
      obtain ⟨binding, _, hassign, hpure⟩ := hfirst
      obtain ⟨_, rfl⟩ := ends_pure.mp hpure
      exact visits_assign htable hs hassign hfits₁ hhead'
    | other hassign _ htail' =>
      have hnot : ¬stmt.isAssign = true := by
        rw [hassign]
        exact Bool.false_ne_true
      rw [if_neg hnot] at hfirst
      rw [moduleVisits, if_neg hnot]
      rw [hfirst.2] at hrest
      exact ih htail hs hmodule hrest htail'

end Runs

theorem map_declaredIn (stmts : List Stmt) :
    (declaredIn stmts).map Prod.fst = (globalsOf stmts).map Prod.fst := by
  have hdeclared : declaredIn stmts = (globalsOf stmts).map fun v => (v.1, v.2.kind) := by
    rw [declaredIn, globalsOf, List.map_filterMap]
    exact List.filterMap_congr fun stmt _ => declared?_eq stmt
  rw [hdeclared, List.map_map]
  rfl

/-- The names of the resolved program `p'` are found where the sketch declares them, as the run of
inference that came from `p` to it has them. -/
structure Scoped (table : CallTable) (p p' : Program) : Prop where
  bare : p'.bare = p.bare
  /-- Every function has its hoisted names and its signature. -/
  resolved : ∀ o ∈ p'.occurrences, o.stmt.isFunction = true → o.definition?.isSome = true
  globals : ((declaredIn p'.statements).map Prod.fst).Nodup
  names : ∀ d ∈ p'.definitions, d.names.Nodup
  /-- What inner blocks assign first is hoisted. -/
  blocks : ∀ d ∈ p'.definitions, ∀ o ∈ d.occurrences, ∀ block ∈ o.stmt.blocks,
    declaredIn block = []
  module : List.Forall₂ (Found table) (moduleVisits table (start p) p.statements)
    (p'.occurrences.flatMap Occurrence.sites)
  bodies : ∀ d ∈ p'.definitions, ∃ task ∈ tasksOf p.statements, task.line = d.line ∧
    task.head = d.head ∧ ∃ s s',
      Tried table (Inference.globals table p) (tasksOf p.statements) (afterGlobals table p) task s ∧
      Ends (inferFunction table (Inference.globals table p) task) s (.ok d.stmt) s' ∧
      List.Forall₂ (Found table) (task.visits table (Inference.globals table p) s)
        (d.occurrences.flatMap Occurrence.sites)

section Results

variable {table : CallTable} {p p' : Program} {stmts : List Stmt}
  {finished : List (String × Stmt)} {last : Functions}

theorem Inferred.scoped (htable : table.Sound) (hp : p.WellFormed)
    (hloops : ∀ var ∈ p.loopVars, table.constant? var = none)
    (h : Inferred table p p' stmts finished last) : Scoped table p p' := by
  have hbare := h.bare_eq htable hp
  have htyped := h.typed htable hp
  have hcallees : p'.callees table = ⟨table, last.signatures⟩ := by
    rw [Program.callees, h.signatures_eq htable hp]
  have hloops' : ∀ var ∈ p'.loopVars, table.constant? var = none := by
    rw [← p'.loopVars_bare, hbare, p.loopVars_bare]
    exact hloops
  have hfits := h.fits htable hp
  have hglobals := h.module.proper.scope.locals
  refine ⟨hbare, htyped.resolved, ?_, fun d hd => ?_, fun d hd => ?_, ?_, fun d hd => ?_⟩
  · have hnames := h.nodup_globals htable hp
    rw [← h.globalsOf_eq htable hp] at hnames
    rw [map_declaredIn]
    exact hnames
  · obtain ⟨_, _, _, _, _, _, _, _, _, _, _, _, hnames, _⟩ := h.reads htable hp hd
    exact hnames
  · obtain ⟨_, _, _, _, _, _, _, _, _, hresolves, _⟩ := h.reads htable hp hd
    exact hresolves.blocks
  · obtain ⟨readings, hresolves, hsites, _⟩ := h.readsModule htable hp
    rw [hcallees] at hresolves
    refine found_of_sees (moduleVisits_sees htable
      (fun stmt hstmt => (hp.statements stmt hstmt).isModuleLevel) (start_proper hp) .start h.ends
      (hfits.of_grows h.advance.grows) hresolves) hsites fun site hsite x hx => ?_
    obtain ⟨o, ho, hsite⟩ := List.mem_flatMap.mp hsite
    cases hfunction : o.stmt.isFunction with
    | true =>
      rw [sites_of_isFunction hfunction] at hsite
      cases hsite
    | false =>
      exact constant?_of_declaring (c := p'.callees table) (htyped.module o ho hfunction)
        (fun var hvar => hloops' var (loopVars_of_mem_occurrencesIn ho hvar)) hsite hx
  · obtain ⟨task, htask, hline, hhead, readings, _, _, s, s', hresolves, hsimulated, _, _, htried,
      hfinishes⟩ := h.reads htable hp hd
    refine ⟨task, htask, hline, hhead, s, s', htried, hfinishes.ends, ?_⟩
    rw [hcallees] at hresolves
    refine found_of_sees (hfinishes.visits_sees htable hglobals
      (wellFormed_of_task hp htask).2 hfits
      hresolves) hsimulated.sites fun site hsite x hx => ?_
    obtain ⟨o, ho, hsite⟩ := List.mem_flatMap.mp hsite
    exact constant?_of_declaring (c := p'.callees table) (htyped.bodies d hd o ho)
      (fun var hvar => hloops' var (Definition.loopVars_subset hd ho hvar)) hsite hx

end Results

/-- A program that comes from a text, in which no loop counts in a constant of the runtime, becomes
one in which block scopes give every name the declaration that the inferencer had in mind. -/
theorem infer_scoped {table : CallTable} (htable : table.Built) {source : String} {p p' : Program}
    (hsource : Program.ofSource source = .ok p)
    (hloops : ∀ var ∈ p.loopVars, table.constant? var = none)
    (hinfer : (infer table p).1 = .ok p') : Scoped table p p' := by
  have hp := Program.wellFormed_of_source hsource
  rcases infer_cases htable.sound hp with ⟨_, herror, _⟩ | ⟨_, _, _, _, hok, h⟩
  · cases hinfer.symm.trans herror
  · cases hinfer.symm.trans hok
    exact h.scoped htable.sound hp hloops

/-- A text whose function hoists a name out of a loop and a block in it, and
reads a global there. -/
theorem infer_scoped_blink : ∃ p', (∀ var ∈ Program.blink.loopVars,
    CallTable.builtin.constant? var = none) ∧ (infer .builtin Program.blink).1 = .ok p' ∧
      Scoped .builtin Program.blink p' := by
  obtain ⟨p', hinfer⟩ := Program.exists_infer_blink
  have hloops : ∀ var ∈ Program.blink.loopVars, CallTable.builtin.constant? var = none := by
    have hvars : Program.blink.loopVars = ["i"] := rfl
    rw [hvars]
    exact List.forall_mem_singleton.mpr (by decide)
  exact ⟨p', hloops, hinfer, infer_scoped .builtin Program.ofSource_blink hloops hinfer⟩

end Inference

end Sketchwright
