import Sketchwright.Proofs.Bare
import Sketchwright.Proofs.Sources

/-! Kinds of resolved programs. Every expression of a resolved program has a kind by the kind rules,
with the declarations that the sketch sees and the final signatures of the functions; whatever is
assigned, passed or returned has a kind that its target accepts. -/

namespace Sketchwright

open Inference

/-- The signature of a definition agrees with its header. -/
structure Definition.Signed (d : Definition) : Prop where
  params : List.Forall₂ (fun param kind => kind.isScalar = true ∧
    ∀ annotated, param.kind = some annotated → kind = annotated) d.head.params d.signature.params
  returns : Returnable d.signature.returns
  annotated : ∀ kind, d.returns = some kind → d.signature.returns = kind

/-- In some function body of the program, argument number `i` of some call of `callee` is of this
kind. -/
def Program.Passes (table : CallTable) (p : Program) (callee : String) (i : Nat) (kind : Kind) :
    Prop :=
  ∃ d ∈ p.definitions, ∃ o ∈ d.occurrences, ∃ site ∈ o.sites, ∃ args arg,
    (callee, args) ∈ site.expr.calls ∧ args[i]? = some arg ∧
      HasKind (p.callees table) (site.context.kind? table) arg kind

/-- The kinds of a resolved program fit together. -/
structure Program.Typed (table : CallTable) (p : Program) : Prop where
  /-- Every function has a signature. -/
  resolved : ∀ o ∈ p.occurrences, o.stmt.isFunction = true → o.definition?.isSome = true
  /-- No statement outside functions has an expression that does not fit. -/
  module : ∀ o ∈ p.occurrences, o.stmt.isFunction = false →
    o.stmt.Typed (p.callees table) moduleResult o.context
  bodies : ∀ d ∈ p.definitions, ∀ o ∈ d.occurrences,
    o.stmt.Typed (p.callees table) d.result o.context
  signatures : ∀ d ∈ p.definitions, p.signatures d.head.name = some d.signature
  signed : ∀ d ∈ p.definitions, d.Signed
  /-- A parameter without annotation gets its kind from a call. -/
  passed : ∀ d ∈ p.definitions, ∀ i param kind, d.head.params[i]? = some param →
    param.kind = none → d.signature.params[i]? = some kind → p.Passes table d.head.name i kind

theorem exists_of_forall₂ {α β : Type} {R : α → β → Prop} {as : List α} {bs : List β}
    (h : List.Forall₂ R as bs) {a : α} (ha : a ∈ as) : ∃ b ∈ bs, R a b := by
  induction h with
  | nil => cases ha
  | cons hab _ ih =>
    rcases List.mem_cons.mp ha with rfl | ha
    · exact ⟨_, List.mem_cons_self, hab⟩
    · obtain ⟨b, hb, hab⟩ := ih ha
      exact ⟨b, List.mem_cons_of_mem _ hb, hab⟩

namespace Inference

/-- The slots of a complete function hold its kinds. -/
theorem Slots.Complete.getElem? {s : Slots} (h : s.Complete) {i : Nat} {p : String × Option Kind}
    {kind : Kind} (hp : s.params[i]? = some p) (hkind : s.paramKinds[i]? = some kind) :
    p.2 = some kind := by
  have hslot : ∀ {ps : List (String × Option Kind)} {ks : List Kind} {i : Nat},
      List.Forall₂ (fun p k => SlotGrows p.2 (some k)) ps ks → (∀ p ∈ ps, ∃ kind, p.2 = some kind) →
        ps[i]? = some p → ks[i]? = some kind → p.2 = some kind := by
    intro ps ks i hgrows hsome hp hkind
    induction hgrows generalizing i with
    | nil => simp at hp
    | cons hslot _ ih =>
      obtain ⟨⟨known, hknown⟩, htail⟩ := List.forall_mem_cons.mp hsome
      cases i with
      | zero =>
        cases hp
        cases hkind
        rw [hknown, hslot.of_some hknown]
      | succ i => exact ih htail hp hkind
  exact hslot h.fits.params (openParam?_eq_none.mp h.params) hp hkind

/-- Every statement of a block has a place among the occurrences of the block. -/
theorem exists_place (context : Context) {stmts : List Stmt} {stmt : Stmt} (h : stmt ∈ stmts) :
    ∃ inner, stmt.occurrences inner ⊆ occurrencesIn context stmts := by
  induction stmts generalizing context with
  | nil => cases h
  | cons other stmts ih =>
    rcases List.mem_cons.mp h with rfl | h
    · exact ⟨context, List.subset_append_left _ _⟩
    · obtain ⟨inner, hinner⟩ := ih (context.after other) h
      exact ⟨inner, List.Subset.trans hinner (List.subset_append_right _ _)⟩

section Results

variable {table : CallTable} {p p' : Program} {stmts : List Stmt}
  {finished : List (String × Stmt)} {last : Functions}

/-- The signatures of a run agree with the headers. -/
theorem Inferred.signed (htable : table.Sound) (hp : p.WellFormed)
    (h : Inferred table p p' stmts finished last) {task : Task}
    (htask : task ∈ tasksOf p.statements) {signature : Signature}
    (hsig : last.signatures task.name = some signature) :
    List.Forall₂ (fun param kind => kind.isScalar = true ∧
        ∀ annotated, param.kind = some annotated → kind = annotated)
      task.head.params signature.params ∧
    Returnable signature.returns ∧ ∀ kind, task.returns = some kind → signature.returns = kind := by
  have hproper : last.Proper := h.advance.proper (h.effect.proper (start_proper hp).functions)
  obtain ⟨_, hsig', hfits⟩ := ((h.fits htable hp).of_grows h.grows).some (find?_heads h.nodup htask)
  cases hsig.symm.trans hsig'
  obtain ⟨slots, hslots, hsignature⟩ := Option.map_eq_some_iff.mp hsig
  have hscalar : ∀ kind ∈ signature.params, kind.isScalar = true := by
    rw [← hsignature]
    exact Slots.paramKinds_scalar (hproper hslots)
  refine ⟨?_, ?_, fun kind hkind => ?_⟩
  · have hparams := List.forall₂_map_left_iff.mp hfits.params
    refine ((List.forall₂_and_left _ _).mpr ⟨hscalar, hparams.flip⟩).flip.imp ?_
    rintro param kind ⟨hkind, hslot⟩
    exact ⟨hkind, fun annotated hannotated => Option.some.inj (SlotGrows.of_some hslot hannotated)⟩
  · obtain ⟨kind, hkind⟩ := Option.isSome_iff_exists.mp (h.complete htable hp hslots).returns
    rw [← hsignature, hkind]
    exact (hproper hslots).returns kind hkind
  · exact Option.some.inj (hfits.returns.of_some hkind)

/-- A definition of the resolved program, as an attempt at its function resolved it and
as the sketch reads it. -/
theorem Inferred.reads (htable : table.Sound) (hp : p.WellFormed)
    (h : Inferred table p p' stmts finished last) {d : Definition} (hd : d ∈ p'.definitions) :
    ∃ task ∈ tasksOf p.statements, task.line = d.line ∧ task.head = d.head ∧
      ∃ readings after fr s s',
      ResolvesTask (p'.callees table) (globals table p) task d.stmt readings ∧
      Simulated (p'.callees table) d.hoisted d.result after d.occurrences fr readings ∧
      p'.signatures d.head.name = some d.signature ∧ d.names.Nodup ∧
      Tried table (globals table p) (tasksOf p.statements) (afterGlobals table p) task s ∧
      Finishes table (globals table p) task d.stmt last s s' := by
  obtain ⟨task, htask, hline, hhead, hprecedes, s, s', htried, hfinishes⟩ :=
    h.definition htable hp hd
  obtain ⟨readings, hresolves⟩ := h.resolves htable hp htask hfinishes
  have hparams : ∀ {signature}, last.signatures task.head.name = some signature →
      signature.params.length = task.head.params.length := fun hsig =>
    (h.signed htable hp htask hsig).1.length_eq.symm
  obtain ⟨signature, hoisted, body, fr, hstmt, hsig, hnodup, hsimulated⟩ :=
    hresolves.simulated (wellFormed_of_task hp htask).1.nodup hparams (hline ▸ hprecedes)
  obtain ⟨context, line, head, signature', hoisted', body'⟩ := d
  cases hstmt
  have hcallees : p'.callees table = ⟨table, last.signatures⟩ := by
    rw [Program.callees, h.signatures_eq htable hp]
  rw [hcallees, h.signatures_eq htable hp]
  refine ⟨task, htask, rfl, rfl, readings, _, fr, s, s', hresolves, hsimulated, hsig, ?_, htried,
    hfinishes⟩
  rw [List.append_assoc] at hnodup
  simp only [Definition.names, List.append_assoc]
  exact (List.perm_append_comm.append_left _).nodup_iff.mp hnodup

/-- Every function has its definition in the resolved program. -/
theorem Inferred.exists_definition (htable : table.Sound) (hp : p.WellFormed)
    (h : Inferred table p p' stmts finished last) {task : Task}
    (htask : task ∈ tasksOf p.statements) : ∃ d ∈ p'.definitions, d.head = task.head := by
  obtain ⟨_, hresolves⟩ := h.resolvesModule htable hp
  rw [← hresolves.tasksOf_eq] at htask
  obtain ⟨_, _, hsource⟩ := mem_tasksOf htask
  obtain ⟨_, _, rfl, s, s', _, hfinishes⟩ := h.place_function htable hp hsource
  obtain ⟨signature, hoisted, body, hplace⟩ := hfinishes.stmt_eq
  have hmem := List.mem_map_of_mem (f := place finished) hsource
  have hstatements : p'.statements = stmts.map (place finished) := by rw [h.program]
  rw [← hstatements, hplace] at hmem
  obtain ⟨context, ho⟩ := exists_place [] hmem
  exact ⟨⟨context, _, _, signature, hoisted, body⟩,
    List.mem_filterMap.mpr ⟨_, ho (List.mem_singleton_self _), rfl⟩, rfl⟩

/-- The places of statements are the same before and after definitions are put into them. -/
theorem Inferred.occurrences_eq (htable : table.Sound) (hp : p.WellFormed)
    (h : Inferred table p p' stmts finished last) :
    p'.occurrences = (occurrencesIn [] stmts).map fun o => ⟨o.context, place finished o.stmt⟩ := by
  have hall : ∀ rest, (∀ stmt ∈ rest, stmt ∈ stmts) → ∀ context,
      occurrencesIn context (rest.map (place finished)) =
        (occurrencesIn context rest).map fun o => ⟨o.context, place finished o.stmt⟩ := by
    intro rest hrest
    induction rest with
    | nil => exact fun _ => rfl
    | cons stmt rest ih =>
      intro context
      obtain ⟨hhead, htail⟩ := List.forall_mem_cons.mp hrest
      obtain ⟨_, _, hglobal, _, hlevel⟩ := h.place_eq htable hp hhead
      obtain ⟨_, hresolves⟩ := h.resolvesModule htable hp
      have hafter : context.after (place finished stmt) = context.after stmt := by
        rw [after_eq, after_eq, declared?_eq, declared?_eq, hglobal]
      rw [List.map_cons, occurrencesIn, occurrencesIn, hafter, ih htail,
        occurrences_of_moduleLevel hlevel,
        occurrences_of_moduleLevel (hresolves.isModuleLevel stmt hhead)]
      rfl
  have hstatements : p'.statements = stmts.map (place finished) := by rw [h.program]
  rw [Program.occurrences, hstatements]
  exact hall stmts (fun _ h => h) []

theorem mem_of_mem_occurrencesIn {stmts : List Stmt}
    (hlevel : ∀ stmt ∈ stmts, stmt.isModuleLevel = true) {o : Occurrence}
    (ho : o ∈ occurrencesIn [] stmts) : o.stmt ∈ stmts := by
  obtain ⟨_, _, hsplit, _⟩ := mem_occurrencesIn hlevel ho
  rw [hsplit]
  simp

/-- A definition itself reads nothing. -/
theorem sites_of_isFunction {o : Occurrence} (h : o.stmt.isFunction = true) : o.sites = [] := by
  obtain ⟨context, stmt⟩ := o
  cases stmt <;> first | rfl | cases h

theorem agrees_module : Agrees [] (.ofScope .module) [] := by
  have hmissing : ∀ x, (Frame.ofScope .module).scope.meaning x = .missing := fun _ => rfl
  refine ⟨fun {x _} h => ?_, fun _ h => (nomatch h), fun {x _} h => ?_, fun _ _ => rfl⟩
  all_goals
    rw [hmissing] at h
    cases h

/-- The assignments of the module, as inference resolved them and as the sketch reads them. -/
theorem Inferred.readsModule (htable : table.Sound) (hp : p.WellFormed)
    (h : Inferred table p p' stmts finished last) : ∃ readings,
      ResolvesModule (p'.callees table) (.ofScope .module) p.statements stmts
        (afterGlobals table p).frame readings ∧
      List.Forall₂ (Matches table) readings (p'.occurrences.flatMap Occurrence.sites) ∧
      ∀ o ∈ p'.occurrences, o.stmt.isFunction = false →
        o.stmt.Typed (p'.callees table) moduleResult o.context := by
  have hcallees : p'.callees table = ⟨table, last.signatures⟩ := by
    rw [Program.callees, h.signatures_eq htable hp]
  rw [hcallees]
  obtain ⟨readings, hresolves⟩ := h.resolvesModule htable hp
  obtain ⟨hsites, htyped⟩ := hresolves.simulated .start agrees_module
  have hmem : ∀ o ∈ occurrencesIn [] stmts, o.stmt ∈ stmts :=
    fun _ => mem_of_mem_occurrencesIn hresolves.isModuleLevel
  have hkeep : ∀ o ∈ occurrencesIn [] stmts, (place finished o.stmt).isFunction = false →
      (⟨o.context, place finished o.stmt⟩ : Occurrence) = o ∧ o.stmt.isFunction = false := by
    intro o ho hfunction
    rw [(h.place_eq htable hp (hmem o ho)).1] at hfunction
    rw [place_other hfunction]
    exact ⟨rfl, hfunction⟩
  rw [h.occurrences_eq htable hp]
  refine ⟨readings, hresolves, ?_, fun o ho hfunction => ?_⟩
  · have hsame : ∀ o ∈ occurrencesIn [] stmts,
        (⟨o.context, place finished o.stmt⟩ : Occurrence).sites = o.sites := by
      intro o ho
      cases hfunction : (place finished o.stmt).isFunction with
      | false => rw [(hkeep o ho hfunction).1]
      | true =>
        have hsource := hfunction
        rw [(h.place_eq htable hp (hmem o ho)).1] at hsource
        rw [sites_of_isFunction hfunction, sites_of_isFunction hsource]
    rw [List.flatMap_map, List.flatMap_congr hsame]
    exact hsites
  · obtain ⟨source, hsource, rfl⟩ := List.mem_map.mp ho
    obtain ⟨hsame, hfunction⟩ := hkeep source hsource hfunction
    rw [hsame]
    exact htyped source hsource hfunction

/-- A parameter that the header leaves open gets the kind of an argument of some call. -/
theorem Inferred.passes (htable : table.Sound) (hp : p.WellFormed)
    (h : Inferred table p p' stmts finished last) {task : Task}
    (htask : task ∈ tasksOf p.statements) {i : Nat} {param : Param} {kind : Kind}
    {signature : Signature} (hsig : last.signatures task.name = some signature)
    (hparam : task.head.params[i]? = some param) (hnone : param.kind = none)
    (hkind : signature.params[i]? = some kind) : p'.Passes table task.name i kind := by
  have hfilled : (heads (tasksOf p.statements)).Filled last task.name i kind := by
    obtain ⟨slots, hslots, rfl⟩ := Option.map_eq_some_iff.mp hsig
    obtain ⟨slots', hslots', hgrows⟩ := h.grows.some (find?_heads h.nodup htask)
    cases hslots.symm.trans hslots'
    have hopen : (Slots.ofHead task.line task.head).params[i]? = some (param.name, none) := by
      simp [Slots.ofHead, hparam, hnone]
    obtain ⟨⟨_, slot⟩, hslot, rfl, _⟩ := hgrows.params.getElem? hopen
    obtain rfl : slot = some kind := (h.complete htable hp hslots).getElem? hslot hkind
    exact ⟨_, _, _, find?_heads h.nodup htask, hopen, hslots, hslot⟩
  rcases hfilled.split h.effect.grows h.advance.grows with hfilled | hfilled
  · exact (h.effect.filled ((h.fits htable hp).of_grows h.advance.grows) hfilled).elim
  obtain ⟨caller, hcaller, hfrom⟩ := h.advance.filled (h.fits htable hp) hfilled
  obtain ⟨d, hd, hhead⟩ := h.exists_definition htable hp hcaller
  obtain ⟨task', htask', _, hhead', readings, _, _, _, _, hresolves, hsimulated, _⟩ :=
    h.reads htable hp hd
  obtain rfl : task' = caller := by
    refine List.inj_on_of_nodup_map h.nodup htask' hcaller ?_
    rw [Task.name, Task.name, hhead', hhead]
  have hcallees : p'.callees table = ⟨table, last.signatures⟩ := by
    rw [Program.callees, h.signatures_eq htable hp]
  rw [hcallees] at hresolves
  obtain ⟨x, hx, _, args, arg, hcall, harg, hkind⟩ := hfrom hresolves
  obtain ⟨site, hsite, hmatches⟩ := exists_of_forall₂ hsimulated.sites hx
  obtain ⟨o, ho, hsite⟩ := List.mem_flatMap.mp hsite
  refine ⟨d, hd, o, ho, site, hsite, args, arg, hmatches.expr ▸ hcall, harg, ?_⟩
  rw [hcallees]
  refine hkind.congr fun name hname => ?_
  obtain ⟨_, hscope, hcontext⟩ :=
    hmatches.kinds name (Expr.vars_of_mem_calls hcall (List.mem_of_getElem? harg) hname)
  exact hscope.trans hcontext.symm

theorem Inferred.typed (htable : table.Sound) (hp : p.WellFormed)
    (h : Inferred table p p' stmts finished last) : p'.Typed table where
  resolved := by
    intro o ho hfunction
    rw [h.occurrences_eq htable hp] at ho
    obtain ⟨source, hsource, rfl⟩ := List.mem_map.mp ho
    obtain ⟨_, hresolves⟩ := h.resolvesModule htable hp
    have hstmt : source.stmt ∈ stmts := mem_of_mem_occurrencesIn hresolves.isModuleLevel hsource
    have hplaced : place finished source.stmt ∈ p'.statements := by
      rw [h.program]
      exact List.mem_map_of_mem hstmt
    generalize place finished source.stmt = stmt at hfunction hplaced ⊢
    cases stmt with
    | function line head signature hoisted body =>
      obtain ⟨signature, rfl⟩ := Option.isSome_iff_exists.mp (h.stated htable hp hplaced).1
      rfl
    | _ => cases hfunction
  module := by
    obtain ⟨_, _, _, htyped⟩ := h.readsModule htable hp
    exact htyped
  bodies := by
    intro d hd o ho
    obtain ⟨_, _, _, _, _, _, _, _, _, _, hsimulated, _⟩ := h.reads htable hp hd
    exact hsimulated.typed o ho
  signatures := by
    intro d hd
    obtain ⟨_, _, _, _, _, _, _, _, _, _, _, hsig, _⟩ := h.reads htable hp hd
    exact hsig
  signed := by
    intro d hd
    obtain ⟨task, htask, _, hhead, _, _, _, _, _, _, _, hsig, _⟩ := h.reads htable hp hd
    rw [h.signatures_eq htable hp, ← hhead] at hsig
    obtain ⟨hparams, hreturns, hannotated⟩ := h.signed htable hp htask hsig
    rw [hhead] at hparams
    refine ⟨hparams, hreturns, fun kind hkind => hannotated kind ?_⟩
    rw [Task.returns, Slots.ofHead, hhead]
    exact hkind
  passed := by
    intro d hd i param kind hparam hnone hkind
    obtain ⟨task, htask, _, hhead, _, _, _, _, _, _, _, hsig, _⟩ := h.reads htable hp hd
    rw [h.signatures_eq htable hp, ← hhead] at hsig
    rw [← hhead] at hparam ⊢
    exact h.passes htable hp htask hsig hparam hnone hkind

end Results

/-- Inference of a program that comes from a text fills its slots such that the kinds fit together.
Whatever has a kind by the rules has a scalar one. -/
theorem infer_typed {table : CallTable} (htable : table.Built) {source : String} {p p' : Program}
    (hsource : Program.ofSource source = .ok p) (hinfer : (infer table p).1 = .ok p') :
    p'.bare = p.bare ∧ p'.Typed table ∧
      ∀ names e kind, HasKind (p'.callees table) names e kind → kind.isScalar = true := by
  have hp := Program.wellFormed_of_source hsource
  rcases infer_cases htable.sound hp with ⟨_, herror, _⟩ | ⟨_, _, _, _, hok, h⟩
  · cases hinfer.symm.trans herror
  · cases hinfer.symm.trans hok
    exact ⟨h.bare_eq htable.sound hp, h.typed htable.sound hp, fun _ _ _ hkind => hkind.isScalar⟩

/-- A text whose function is called before its definition is one of these. -/
theorem infer_typed_sample : ∃ p', (infer .builtin Program.sample).1 = .ok p' ∧
    p'.bare = Program.sample.bare ∧ p'.Typed .builtin ∧
      ∀ names e kind, HasKind (p'.callees .builtin) names e kind → kind.isScalar = true := by
  obtain ⟨p', hinfer⟩ := Program.exists_infer_sample
  exact ⟨p', hinfer, infer_typed .builtin Program.ofSource_sample hinfer⟩

end Inference

end Sketchwright
