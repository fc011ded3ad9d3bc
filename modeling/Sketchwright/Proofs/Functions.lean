import Sketchwright.Inference.Worklist
import Sketchwright.Proofs.Bodies

/-! One attempt at a function. Either it gives up, and has only filled slots for calls that every
complete resolution of the function makes, or it resolves the function and fixes its result. -/

namespace Sketchwright.Inference

namespace Task

/-- The return kind that the header fixes. -/
def returns (task : Task) : Option Kind := (Slots.ofHead task.line task.head).returns

/-- The parameters as variables of these kinds. -/
def arguments (task : Task) (kinds : List Kind) : Variables :=
  ((task.head.params.zip kinds).map fun v => (v.1.name, ⟨v.2, task.line⟩)).reverse

/-- The frame in which the body starts. -/
def start (task : Task) (globals : Variables) (kinds : List Kind) : Frame :=
  .ofScope (bodyScope globals task kinds)

theorem bodyScope_eq (globals : Variables) (task : Task) (kinds : List Kind) :
    bodyScope globals task kinds =
      { Scope.function globals task.line with locals := task.arguments kinds } := by
  have hfold : ∀ (vs : List (Param × Kind)) (scope : Scope),
      vs.foldl (fun scope v => scope.declare v.1.name v.2 task.line) scope =
        { scope with
          locals := (vs.map fun v => (v.1.name, ⟨v.2, task.line⟩)).reverse ++ scope.locals } := by
    intro vs
    induction vs with
    | nil => exact fun _ => rfl
    | cons v vs ih =>
      intro scope
      rw [List.foldl_cons, ih]
      simp [Scope.declare]
  refine (hfold _ _).trans ?_
  simp [Scope.function, arguments]

theorem start_proper {globals : Variables} {task : Task} {kinds : List Kind}
    (hglobals : ∀ v ∈ globals, v.2.kind.isStorable = true)
    (hkinds : ∀ kind ∈ kinds, kind.isScalar = true) : (task.start globals kinds).Proper := by
  refine ⟨⟨fun v hv => ?_, fun vs hvs => ?_⟩, nofun, nofun⟩
  · simp only [start, Frame.ofScope, bodyScope_eq, arguments, List.mem_reverse, List.mem_map] at hv
    obtain ⟨p, hp, rfl⟩ := hv
    exact Kind.isStorable_of_isScalar (hkinds p.2 (List.of_mem_zip hp).2)
  · simp only [start, Frame.ofScope, bodyScope_eq, Scope.function, Option.some.injEq] at hvs
    exact hvs ▸ hglobals

end Task

/-- A function becomes a definition with its signature, its hoisted names and its resolved body. -/
inductive ResolvesTask (c : Callees) (globals : Variables) (task : Task) :
    Stmt → List Reading → Prop
  | intro {signature body fr readings} (hsig : c.signatures task.head.name = some signature)
      (hreturns : signature.returns = (task.returns <|> fr.returned).getD .void)
      (hbody : ResolvesAll c task.returns (task.start globals signature.params) task.body body fr
        readings) :
      ResolvesTask c globals task
        (.function task.line task.head (some signature) fr.hoisted body) readings

/-- Every complete resolution of a function reads a call that fills the slot. -/
def FromTask (table : CallTable) (globals : Variables) (task : Task) : Reason :=
  fun signatures name i kind => ∀ {stmt readings},
    ResolvesTask ⟨table, signatures⟩ globals task stmt readings →
      ∃ x ∈ readings, FromCall table x.scope x.expr.calls signatures name i kind

/-- All kinds of a function are known. -/
structure Slots.Complete (s : Slots) : Prop where
  params : s.openParam? = none
  returns : s.returns.isSome = true

theorem Slots.openParam?_eq_none {s : Slots} :
    s.openParam? = none ↔ ∀ p ∈ s.params, ∃ kind, p.2 = some kind := by
  simp only [openParam?, Option.map_eq_none_iff, List.find?_eq_none, Option.isNone_iff_eq_none,
    ← Option.ne_none_iff_exists', ne_eq]

theorem Slots.paramKinds_eq {s : Slots} {signature : Signature} (h : s.Fits signature)
    (hopen : s.openParam? = none) : signature.params = s.paramKinds := by
  have hparams := h.params
  have hsome := openParam?_eq_none.mp hopen
  unfold paramKinds
  generalize s.params = params at hparams hsome
  generalize signature.params = kinds at hparams
  induction hparams with
  | nil => rfl
  | @cons p kind _ _ hp _ ih =>
    obtain ⟨⟨known, hknown⟩, htail⟩ := List.forall_mem_cons.mp hsome
    rw [List.filterMap_cons_some hknown, ih htail, Option.some.inj (hp.of_some hknown)]

theorem Slots.openParam?_of_grows {s t : Slots} (h : s.openParam? = none) (hg : s.Grows t) :
    t.openParam? = none := by
  have hsome := openParam?_eq_none.mp h
  refine openParam?_eq_none.mpr ?_
  have hparams := hg.params
  generalize s.params = ps at hparams hsome
  generalize t.params = qs at hparams
  induction hparams with
  | nil => exact nofun
  | cons hp _ ih =>
    obtain ⟨⟨known, hknown⟩, htail⟩ := List.forall_mem_cons.mp hsome
    exact List.forall_mem_cons.mpr ⟨⟨known, hp.2.of_some hknown⟩, ih htail⟩

theorem Slots.Complete.of_grows {s t : Slots} (h : s.Complete) (hg : s.Grows t) : t.Complete := by
  refine ⟨openParam?_of_grows h.params hg, ?_⟩
  obtain ⟨kind, hkind⟩ := Option.isSome_iff_exists.mp h.returns
  rw [hg.returns.of_some hkind]
  rfl

/-- What attempts at functions do to all functions: slots of parameters fill for a reason, and of
results those of the functions `names`. -/
structure Advance (reason : Reason) (names : List String) (old new : Functions) : Prop where
  grows : old.Grows new
  returns : ∀ {name s t}, name ∉ names → old.find? name = some s → new.find? name = some t →
    t.returns = s.returns
  proper : old.Proper → new.Proper
  filled : ∀ {signatures}, new.Fits signatures → ∀ {name i kind}, old.Filled new name i kind →
    reason signatures name i kind

namespace Advance

variable {reason weaker : Reason} {names others : List String} {fs gs hs : Functions}

theorem of_effect (h : Effect reason fs gs) : Advance reason [] fs gs :=
  ⟨h.grows, fun _ => h.returns, h.proper, h.filled⟩

theorem trans (h₁ : Advance reason names fs gs) (h₂ : Advance reason others gs hs) :
    Advance reason (names ++ others) fs hs where
  grows := h₁.grows.trans h₂.grows
  returns := by
    intro name s u hname hs hu
    obtain ⟨t, ht, _⟩ := h₁.grows.some hs
    rw [List.mem_append, not_or] at hname
    rw [h₂.returns hname.2 ht hu, h₁.returns hname.1 hs ht]
  proper := h₂.proper ∘ h₁.proper
  filled := by
    intro signatures hfits _ _ _ h
    rcases h.split h₁.grows h₂.grows with h | h
    · exact h₁.filled (hfits.of_grows h₂.grows) h
    · exact h₂.filled hfits h

theorem mono (h : Advance reason names fs gs) (himp : ∀ {signatures name i kind},
    reason signatures name i kind → weaker signatures name i kind) : Advance weaker names fs gs :=
  ⟨h.grows, h.returns, h.proper, fun hfits _ _ _ hf => himp (h.filled hfits hf)⟩

end Advance

/-- A function whose result is as its header leaves it. -/
def Awaits (fs : Functions) (task : Task) : Prop :=
  ∃ slots, fs.find? task.head.name = some slots ∧ slots.returns = task.returns

theorem Awaits.advance {reason : Reason} {names : List String} {fs gs : Functions} {task : Task}
    (h : Awaits fs task) (hadvance : Advance reason names fs gs) (hname : task.head.name ∉ names) :
    Awaits gs task := by
  obtain ⟨s, hs, hreturns⟩ := h
  obtain ⟨t, ht, _⟩ := hadvance.grows.some hs
  exact ⟨t, ht, (hadvance.returns hname hs ht).trans hreturns⟩

/-- A function that is resolved: all its kinds are known, and under any complete signatures it is
the definition `stmt`. -/
structure Finished (table : CallTable) (globals : Variables) (fs : Functions) (task : Task)
    (stmt : Stmt) : Prop where
  complete : ∃ slots, fs.find? task.head.name = some slots ∧ slots.Complete
  resolves : ∀ {signatures}, fs.Fits signatures →
    ∃ readings, ResolvesTask ⟨table, signatures⟩ globals task stmt readings

theorem Finished.of_grows {table : CallTable} {globals : Variables} {fs gs : Functions}
    {task : Task} {stmt : Stmt} (h : Finished table globals fs task stmt) (hg : fs.Grows gs) :
    Finished table globals gs task stmt := by
  refine ⟨?_, fun hfits => h.resolves (hfits.of_grows hg)⟩
  obtain ⟨s, hs, hcomplete⟩ := h.complete
  obtain ⟨t, ht, hst⟩ := hg.some hs
  exact ⟨t, ht, hcomplete.of_grows hst⟩

section Attempts

variable {table : CallTable} {globals : Variables} {task : Task} {s s' : State}

/-- The body of a function of which this is known. -/
def Task.env (task : Task) (table : CallTable) (slots : Slots) : Env :=
  ⟨table, some ⟨task.head.name, task.head.isEntry, slots.returns⟩⟩

/-- The run of the body that an attempt at a function comes to, when all parameters have kinds. -/
def Task.BodyRun (task : Task) (table : CallTable) (globals : Variables) (s : State) (slots : Slots)
    (r : Except Stall (List Stmt)) (s' : State) : Prop :=
  slots.openParam? = none ∧ Ends (inferBlock (task.env table slots) task.body)
    { s with frame := task.start globals slots.paramKinds } r s'

/-- The result of a function, from what is known before its body is read and what its body gives. -/
def resultKind (slots : Slots) (fr : Frame) : Kind := (slots.returns <|> fr.returned).getD .void

theorem ends_inferFunction_ok {stmt : Stmt} {slots : Slots}
    (hslots : s.functions.find? task.head.name = some slots)
    (h : Ends (inferFunction table globals task) s (.ok stmt) s') : ∃ body s₁,
      task.BodyRun table globals s slots (.ok body) s₁ ∧
      stmt = .function task.line task.head
        (some ⟨slots.paramKinds, resultKind slots s₁.frame⟩) s₁.frame.hoisted body ∧
      s'.functions = s₁.functions.update task.head.name fun slots' =>
        { slots' with returns := some (resultKind slots s₁.frame) } := by
  unfold inferFunction at h
  simp only [ends_bind_ok, ends_get, Except.ok.injEq] at h
  obtain ⟨_, _, ⟨rfl, rfl⟩, h⟩ := h
  rw [hslots] at h
  dsimp only at h
  split at h
  · simp at h
  · next hopen =>
    simp only [ends_bind_ok, ends_modifyFrame, ends_get, ends_modify, ends_emit, ends_pure,
      Except.ok.injEq] at h
    obtain ⟨_, _, ⟨-, rfl⟩, body, _, hbody, _, s₁, ⟨rfl, rfl⟩, _, _, ⟨-, rfl⟩, _, _, ⟨-, rfl⟩,
      rfl, rfl⟩ := h
    exact ⟨body, s₁, ⟨hopen, hbody⟩, rfl, rfl⟩

theorem ends_inferFunction_error {stall : Stall} {slots : Slots}
    (hslots : s.functions.find? task.head.name = some slots)
    (h : Ends (inferFunction table globals task) s (.error stall) s') :
    s' = s ∧ stall.error.isInternal = false ∨
      task.BodyRun table globals s slots (.error stall) s' := by
  unfold inferFunction at h
  simp only [ends_bind_error, ends_get, reduceCtorEq, false_and, false_or, Except.ok.injEq] at h
  obtain ⟨_, _, ⟨rfl, rfl⟩, h⟩ := h
  rw [hslots] at h
  dsimp only at h
  split at h
  · simp only [ends_throw, Except.error.injEq] at h
    obtain ⟨rfl, rfl⟩ := h
    exact .inl ⟨rfl, rfl⟩
  · next hopen =>
    simp only [ends_bind_error, ends_modifyFrame, ends_get, ends_modify, ends_emit, ends_pure,
      Except.ok.injEq, reduceCtorEq, false_and, and_false, exists_false, or_false, false_or] at h
    obtain ⟨_, _, ⟨-, rfl⟩, hbody⟩ := h
    exact .inr ⟨hopen, hbody⟩

theorem Slots.paramKinds_scalar {slots : Slots} (h : slots.Proper) :
    ∀ kind ∈ slots.paramKinds, kind.isScalar = true := by
  intro kind hkind
  obtain ⟨p, hp, hk⟩ := List.mem_filterMap.mp hkind
  exact h.params p hp kind hk

/-- A body run fills slots for calls of the function, and does not find a condition broken. -/
theorem Task.BodyRun.runs (htable : table.Sound)
    (hglobals : ∀ v ∈ globals, v.2.kind.isStorable = true) (hplain : arePlain task.body = true)
    (hs : s.functions.Proper) {slots : Slots} {r : Except Stall (List Stmt)}
    (hslots : s.functions.find? task.head.name = some slots)
    (hreturns : slots.returns = task.returns) (h : task.BodyRun table globals s slots r s') :
    Effect (FromTask table globals task) s.functions s'.functions ∧
      (∀ body, r = .ok body → s'.frame.Proper ∧ ∀ {signatures}, s'.functions.Fits signatures →
        ∃ readings, ResolvesAll ⟨table, signatures⟩ task.returns
          (task.start globals slots.paramKinds) task.body body s'.frame readings) ∧
      ∀ stall, r = .error stall → stall.error.isInternal = false := by
  obtain ⟨hopen, h⟩ := h
  have hproper : State.Proper { s with frame := task.start globals slots.paramKinds } :=
    ⟨hs, Task.start_proper hglobals (Slots.paramKinds_scalar (hs hslots))⟩
  have howner : (task.env table slots).owner =
      some ⟨task.head.name, task.head.isEntry, slots.returns⟩ := rfl
  have hruns := inferBlock_runs htable howner task.body hplain _ hproper
  have hreason : ∀ {signatures}, s.functions.Fits signatures → ∀ {name i kind},
      FromReadings table slots.returns
      (task.start globals slots.paramKinds) task.body signatures name
        i kind → FromTask table globals task signatures name i kind := by
    rintro signatures hfits _ _ _ hfrom _ _ ⟨hsig, -, hbody⟩
    obtain ⟨signature, hsig', hfit⟩ := hfits.some hslots
    cases hsig.symm.trans hsig'
    rw [Slots.paramKinds_eq hfit hopen, ← hreturns] at hbody
    exact hfrom hbody
  have heffect := (hruns.effect h).mono fun {_} hfits {_ _ _} => hreason hfits
  rw [hreturns] at hruns
  refine ⟨heffect, ?_, ?_⟩
  · rintro body rfl
    exact ⟨(hruns.ok h).proper, (hruns.ok h).rules⟩
  · rintro stall rfl
    exact hruns.error h

/-- A function that gets its result. -/
theorem Advance.settle {reason : Reason} {fs : Functions} {slots : Slots} {name : String}
    {kind : Kind} (hslots : fs.find? name = some slots) (hkind : Returnable kind)
    (hreturns : SlotGrows slots.returns (some kind)) :
    Advance reason [name] fs (fs.update name fun slots => { slots with returns := some kind }) := by
  have hfind := fun other => Functions.find?_update fs name other
    (fun slots => { slots with returns := some kind }) fun _ => rfl
  refine ⟨Functions.grows_update (fun _ => rfl) fun s hs => ?_, fun {other s t} hname hs ht => ?_,
    fun hproper {other s} hs => ?_, fun {_} _ {_ _ _} hfilled => ?_⟩
  · cases hslots.symm.trans hs
    exact ⟨rfl, rfl, .refl _, hreturns⟩
  · rw [hfind, if_neg (by simpa using hname)] at ht
    cases hs.symm.trans ht
    rfl
  · rw [hfind] at hs
    split at hs
    · obtain ⟨s₀, hs₀, rfl⟩ := Option.map_eq_some_iff.mp hs
      exact ⟨(hproper hs₀).params, fun k hk => Option.some.inj hk ▸ hkind⟩
    · exact hproper hs
  · obtain ⟨s, t, p, hs, hp, ht, hq⟩ := hfilled
    have hparams : t.params = s.params := by
      rw [hfind, hs] at ht
      split at ht
      · rw [← Option.some.inj ht]
      · rw [← Option.some.inj ht]
    rw [hparams] at hq
    cases hp.symm.trans hq

/-- The result of a resolved body may be returned. -/
theorem resultKind_returnable {slots : Slots} {fr : Frame} (hslots : slots.Proper)
    (hfr : fr.Proper) : Returnable (resultKind slots fr) := by
  unfold resultKind
  cases hs : slots.returns with
  | some kind => exact hslots.returns kind hs
  | none =>
    cases hf : fr.returned with
    | some kind => exact hfr.returned kind hf
    | none => exact .inl rfl

theorem inferFunction_error (htable : table.Sound)
    (hglobals : ∀ v ∈ globals, v.2.kind.isStorable = true) (hplain : arePlain task.body = true)
    (hs : s.functions.Proper) (hawaits : Awaits s.functions task) {stall : Stall}
    (h : Ends (inferFunction table globals task) s (.error stall) s') :
    Advance (FromTask table globals task) [] s.functions s'.functions ∧
      stall.error.isInternal = false := by
  obtain ⟨slots, hslots, hreturns⟩ := hawaits
  rcases ends_inferFunction_error hslots h with ⟨rfl, hcalm⟩ | hrun
  · exact ⟨.of_effect .refl, hcalm⟩
  · obtain ⟨heffect, _, hcalm⟩ := hrun.runs htable hglobals hplain hs hslots hreturns
    exact ⟨.of_effect heffect, hcalm stall rfl⟩

/-- What is fixed as the result of a function after its body agrees with what was known before. -/
theorem Task.BodyRun.settles (htable : table.Sound)
    (hglobals : ∀ v ∈ globals, v.2.kind.isStorable = true) (hplain : arePlain task.body = true)
    (hs : s.functions.Proper) {slots : Slots}
    (hslots : s.functions.find? task.head.name = some slots)
    (hreturns : slots.returns = task.returns) {body : List Stmt} {s₁ : State}
    (hrun : task.BodyRun table globals s slots (.ok body) s₁)
    (hfunctions : s'.functions = s₁.functions.update task.head.name fun slots' =>
      { slots' with returns := some (resultKind slots s₁.frame) }) :
    Advance (FromTask table globals task) [task.head.name] s₁.functions s'.functions ∧
      ∃ slots', s'.functions.find? task.head.name = some slots' ∧ slots.Grows slots' ∧
        slots'.returns = some (resultKind slots s₁.frame) := by
  obtain ⟨heffect, hbody, _⟩ := hrun.runs htable hglobals hplain hs hslots hreturns
  obtain ⟨slots₁, hslots₁, hgrows⟩ := heffect.grows.some hslots
  have hreturns₁ : slots₁.returns = slots.returns := heffect.returns hslots hslots₁
  have hslot : SlotGrows slots₁.returns (some (resultKind slots s₁.frame)) := by
    rw [hreturns₁, resultKind]
    cases slots.returns with
    | none => exact .inl rfl
    | some kind => exact .inr rfl
  have hsettle : Advance (FromTask table globals task) _ _ _ :=
    .settle hslots₁ (resultKind_returnable (hs hslots) (hbody body rfl).1) hslot
  rw [← hfunctions] at hsettle
  have hfind := Functions.find?_update s₁.functions task.head.name task.head.name
    (fun slots' => { slots' with returns := some (resultKind slots s₁.frame) }) fun _ => rfl
  rw [← hfunctions, if_pos rfl, hslots₁, Option.map_some] at hfind
  exact ⟨hsettle, _, hfind, ⟨hgrows.name, hgrows.line, hgrows.params, hreturns₁ ▸ hslot⟩, rfl⟩

theorem inferFunction_ok (htable : table.Sound)
    (hglobals : ∀ v ∈ globals, v.2.kind.isStorable = true) (hplain : arePlain task.body = true)
    (hs : s.functions.Proper) (hawaits : Awaits s.functions task) {stmt : Stmt}
    (h : Ends (inferFunction table globals task) s (.ok stmt) s') :
    Advance (FromTask table globals task) [task.head.name] s.functions s'.functions ∧
      Finished table globals s'.functions task stmt := by
  obtain ⟨slots, hslots, hreturns⟩ := hawaits
  obtain ⟨body, s₁, hrun, rfl, hfunctions⟩ := ends_inferFunction_ok hslots h
  obtain ⟨heffect, hbody, _⟩ := hrun.runs htable hglobals hplain hs hslots hreturns
  obtain ⟨_, hresolves⟩ := hbody body rfl
  obtain ⟨hsettle, slots', hfind, hgrows, hkind'⟩ :=
    hrun.settles htable hglobals hplain hs hslots hreturns hfunctions
  refine ⟨(Advance.of_effect heffect).trans hsettle, ?_, fun {_} hfits => ?_⟩
  · refine ⟨_, hfind, Slots.openParam?_of_grows hrun.1 hgrows, ?_⟩
    rw [hkind']
    rfl
  · obtain ⟨readings, hresolved⟩ := hresolves (hfits.of_grows hsettle.grows)
    obtain ⟨signature, hsig, hfit⟩ := hfits.some hfind
    have hparams := Slots.paramKinds_eq (hfit.of_grows hgrows) hrun.1
    have hkind : signature.returns = resultKind slots s₁.frame :=
      Option.some.inj (hfit.returns.of_some hkind')
    obtain ⟨params, returns⟩ := signature
    obtain rfl : params = slots.paramKinds := hparams
    obtain rfl : returns = resultKind slots s₁.frame := hkind
    refine ⟨readings, .intro hsig ?_ hresolved⟩
    rw [resultKind, hreturns]

end Attempts

end Sketchwright.Inference
