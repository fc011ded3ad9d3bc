import Sketchwright.Proofs.Frames
import Sketchwright.Proofs.Typing

/-! What the inferencer finds out about an expression is what the kind rules say of it, under any
complete signatures that agree with what is known of the functions afterwards. A slot that is filled
on the way holds the kind of an argument of a call in the expression. -/

namespace Sketchwright.Inference

/-- A slot holds the kind of an argument of one of these calls, which a function body makes. -/
def FromCall (table : CallTable) (scope : Scope) (calls : List (String × List Expr)) : Reason :=
  fun signatures name i kind => scope.isModule = false ∧ ∃ args arg, (name, args) ∈ calls ∧
    args[i]? = some arg ∧ HasKind ⟨table, signatures⟩ (scope.kind? table) arg kind

theorem FromCall.mono {table : CallTable} {scope scope' : Scope}
    {calls calls' : List (String × List Expr)} {signatures : Signatures} {name : String} {i : Nat}
    {kind : Kind} (h : FromCall table scope calls signatures name i kind)
    (hmodule : scope.isModule = scope'.isModule) (hkinds : scope.kind? table = scope'.kind? table)
    (hcalls : calls ⊆ calls') : FromCall table scope' calls' signatures name i kind := by
  obtain ⟨hbody, args, arg, hmem, harg, hkind⟩ := h
  exact ⟨hmodule ▸ hbody, args, arg, hcalls hmem, harg, hkinds ▸ hkind⟩

/-- An expression has been read from `s` on, and found to be of this kind. -/
structure Value (table : CallTable) (s : State) (e : Expr) (kind : Kind) (s' : State) : Prop where
  frame : s'.frame = s.frame.read e
  scalar : kind.isScalar = true
  hasKind : ∀ {signatures}, s'.functions.Fits signatures →
    HasKind ⟨table, signatures⟩ (s.frame.scope.kind? table) e kind

/-- Several expressions have been read from `s` on. -/
structure Values (table : CallTable) (s : State) (es : List Expr) (kinds : List Kind) (s' : State) :
    Prop where
  frame : s'.frame = s.frame.readAll (Expr.varsAll es)
  length : kinds.length = es.length
  scalar : ∀ kind ∈ kinds, kind.isScalar = true
  hasKinds : ∀ {signatures}, s'.functions.Fits signatures →
    List.Forall₂ (HasKind ⟨table, signatures⟩ (s.frame.scope.kind? table)) es kinds

section Names

variable {reason : Reason} {s : State} (env : Env) (name : String) (line : Nat)

theorem resolve_runs : Runs reason (resolve env name line) s fun kind s' =>
    s'.frame = s.frame.readAll [name] ∧ s'.functions = s.functions ∧
      s.frame.scope.kind? env.table name = some kind := by
  unfold resolve
  refine .getScope_bind ?_
  split
  · next kind hm =>
    refine .pure ⟨?_, rfl, by simp [Scope.kind?, hm]⟩
    simp [Frame.readAll, Scope.readAll, Scope.read, hm]
  · next kind hm =>
    refine .bind (.modifyScope (Q := fun _ s₁ => s₁ =
      { s with frame := { s.frame with scope := s.frame.scope.markSeen name } }) rfl) ?_
    rintro _ _ _ rfl
    refine .pure ⟨?_, rfl, by simp [Scope.kind?, hm]⟩
    simp [Frame.readAll, Scope.readAll, Scope.read, hm]
  · exact .unbound
  · next hm =>
    split
    · next kind hk =>
      refine .pure ⟨?_, rfl, by simp [Scope.kind?, hm, hk]⟩
      simp [Frame.readAll, Scope.readAll, Scope.read, hm]
    · refine .get_bind ?_
      exact .ite (fun _ => .unsupported) fun _ => .unbound

theorem elementKind_runs : Runs reason (elementKind env name line) s fun element s' =>
    s'.frame = s.frame.readAll [name] ∧ s'.functions = s.functions ∧
      ∃ n, s.frame.scope.kind? env.table name = some (.list element n) := by
  unfold elementKind
  refine .bind (resolve_runs env name line) fun kind s₁ _ h => ?_
  obtain ⟨hframe, hfunctions, hkind⟩ := h
  split
  · next element n => exact .pure ⟨hframe, hfunctions, n, hkind⟩
  · exact .mismatch

end Names

/-- Parameters after a call: those without a kind take the kinds of their arguments. -/
def fillParams (params : List (String × Option Kind)) (kinds : List Kind) :
    List (String × Option Kind) :=
  List.zipWith (fun param kind => (param.1, some (param.2.getD kind))) params kinds

theorem fillParams_grows {params : List (String × Option Kind)} {kinds : List Kind}
    (h : params.length = kinds.length) : ParamsGrow params (fillParams params kinds) := by
  induction params generalizing kinds with
  | nil => exact .nil
  | cons param params ih =>
    cases kinds with
    | nil => cases h
    | cons kind kinds =>
      refine .cons ⟨rfl, ?_⟩ (ih (Nat.succ.inj h))
      cases hslot : param.2 with
      | none => exact .inl rfl
      | some known => exact .inr (by simp [hslot])

theorem matchParams_runs {reason : Reason} (callee : String) (line : Nat)
    (params : List (String × Option Kind)) (position : Nat) (kinds : List Kind) (s : State) :
    Runs reason (matchParams callee line position params kinds) s fun filled s' =>
      s'.functions = s.functions ∧ s'.frame = s.frame ∧ (params.length = kinds.length →
        filled = fillParams params kinds ∧
        List.Forall₂ (fun param kind => ∀ expected, param.2 = some expected →
          expected.accepts kind = true) params kinds) := by
  induction params generalizing position kinds s with
  | nil =>
    unfold matchParams
    refine .pure ⟨rfl, rfl, fun hlen => ?_⟩
    obtain rfl : kinds = [] := List.length_eq_zero_iff.mp hlen.symm
    exact ⟨rfl, .nil⟩
  | cons param params ih =>
    cases kinds with
    | nil =>
      obtain ⟨name, _ | known⟩ := param <;> exact .pure ⟨rfl, rfl, nofun⟩
    | cons kind kinds =>
      obtain ⟨name, _ | known⟩ := param
      · refine .bind (.emit (Q := fun _ s₁ =>
          s₁.functions = s.functions ∧ s₁.frame = s.frame) ⟨rfl, rfl⟩) ?_
        rintro _ s₁ _ ⟨hfunctions, hframe⟩
        refine .bind (ih (position + 1) kinds s₁) fun filled s₂ _ h => ?_
        obtain ⟨hfunctions', hframe', hfilled⟩ := h
        refine .pure ⟨hfunctions'.trans hfunctions, hframe'.trans hframe, fun hlen => ?_⟩
        obtain ⟨rfl, haccepts⟩ := hfilled (Nat.succ.inj hlen)
        exact ⟨rfl, .cons nofun haccepts⟩
      · unfold matchParams
        refine .check .mismatch fun haccepts => ?_
        refine .bind (ih (position + 1) kinds s) fun filled s₂ _ h => ?_
        obtain ⟨hfunctions', hframe', hfilled⟩ := h
        refine .pure ⟨hfunctions', hframe', fun hlen => ?_⟩
        obtain ⟨rfl, htail⟩ := hfilled (Nat.succ.inj hlen)
        refine ⟨rfl, .cons ?_ htail⟩
        rintro _ ⟨⟩
        simpa using haccepts

theorem callResult_runs {reason : Reason} {s : State} (callee : String) (line : Nat)
    (asStatement : Bool) (result : Option Kind) :
    Runs reason (callResult callee line asStatement result) s fun kind s' =>
      s' = s ∧ (asStatement = false → result = some kind ∧ kind ≠ .void) := by
  unfold callResult
  split
  · refine .ite (fun h => .pure ⟨rfl, fun hnot => ?_⟩) fun _ => .throw rfl
    rw [hnot] at h
    cases h
  · refine .ite (fun h => .pure ⟨rfl, fun hnot => ?_⟩) fun _ => .unsupported
    rw [hnot] at h
    cases h
  · next kind hvoid => exact .pure ⟨rfl, fun _ => ⟨rfl, hvoid⟩⟩

/-- The widest of numeric kinds is found, unless there is none to begin with. -/
theorem promoteAll_cases (callee : String) (line : Nat) (kinds : List Kind) (widest : Option Kind)
    (hwidest : ∀ kind, widest = some kind → kind.isNumeric = true)
    (hne : widest.toList ++ kinds ≠ []) :
    (∃ kind, promoteAll callee line widest kinds = .ok kind ∧
      Kind.Widest (widest.toList ++ kinds) kind) ∨
    ∃ e, promoteAll callee line widest kinds = .error e ∧ e.isInternal = false := by
  induction kinds generalizing widest with
  | nil =>
    cases widest with
    | none => exact absurd rfl hne
    | some kind =>
      refine .inl ⟨kind, rfl, List.mem_singleton_self kind, fun j hj => ?_⟩
      rw [List.append_nil] at hj
      cases List.mem_singleton.mp hj
      exact ⟨hwidest kind rfl, Kind.accepts_self kind⟩
  | cons kind kinds ih =>
    cases hnumeric : kind.isNumeric with
    | false =>
      cases widest <;> exact .inr ⟨_, by simp [promoteAll, hnumeric]; rfl, rfl⟩
    | true =>
      cases widest with
      | none =>
        have := ih (some kind) (fun _ h => Option.some.inj h ▸ hnumeric) (by simp)
        simpa [promoteAll, hnumeric] using this
      | some first =>
        obtain ⟨next, hnext, hw⟩ := Kind.promote_widest (hwidest first rfl) hnumeric
        have hnextNumeric : next.isNumeric = true := (hw.2 next hw.1).1
        have := ih (some next) (fun _ h => Option.some.inj h ▸ hnextNumeric) (by simp)
        simp only [promoteAll, hnumeric, if_true, hnext, Option.getD_some]
        rcases this with ⟨k, hk, hkw⟩ | herr
        · exact .inl ⟨k, hk, hw.expand hkw⟩
        · exact .inr herr

theorem fillParams_getElem? {params : List (String × Option Kind)} {kinds : List Kind} {i : Nat}
    {name : String} {kind : Kind} (hopen : params[i]? = some (name, none))
    (h : (fillParams params kinds)[i]? = some (name, some kind)) : kinds[i]? = some kind := by
  unfold fillParams at h
  rw [List.getElem?_zipWith, hopen] at h
  cases hk : kinds[i]? with
  | none => simp [hk] at h
  | some found =>
    rw [hk] at h
    simpa using h

theorem fillParams_scalar {params : List (String × Option Kind)} {kinds : List Kind}
    (hparams : ∀ p ∈ params, ∀ kind, p.2 = some kind → kind.isScalar = true)
    (hkinds : ∀ kind ∈ kinds, kind.isScalar = true) :
    ∀ p ∈ fillParams params kinds, ∀ kind, p.2 = some kind → kind.isScalar = true := by
  induction params generalizing kinds with
  | nil => exact nofun
  | cons param params ih =>
    cases kinds with
    | nil => exact nofun
    | cons kind kinds =>
      obtain ⟨hparam, hparams⟩ := List.forall_mem_cons.mp hparams
      obtain ⟨hkind, hkinds⟩ := List.forall_mem_cons.mp hkinds
      refine List.forall_mem_cons.mpr ⟨fun j hj => ?_, ih hparams hkinds⟩
      obtain rfl := Option.some.inj hj
      cases hslot : param.2 with
      | none => exact hkind
      | some known => exact hparam known hslot

/-- Complete parameters that agree with filled ones accept the arguments that filled them. -/
theorem accepts_of_fillParams {params : List (String × Option Kind)} {kinds final : List Kind}
    (haccepts : List.Forall₂ (fun param kind => ∀ expected, param.2 = some expected →
      expected.accepts kind = true) params kinds)
    (hfinal : List.Forall₂ (fun (param : String × Option Kind) kind =>
      SlotGrows param.2 (some kind)) (fillParams params kinds) final) :
    List.Forall₂ (fun param kind => param.accepts kind = true) final kinds := by
  induction haccepts generalizing final with
  | nil =>
    cases hfinal
    exact .nil
  | @cons param kind _ _ haccept _ ih =>
    cases hfinal with
    | cons hslot hrest =>
      refine .cons ?_ (ih hrest)
      obtain rfl := Option.some.inj (hslot.of_some rfl)
      cases hparam : param.2 with
      | none => exact Kind.accepts_self kind
      | some known => exact haccept known hparam

/-- The functions with other slots for the parameters of one of them. -/
def fill (fs : Functions) (callee : String) (params : List (String × Option Kind)) : Functions :=
  fs.update callee fun slots => { slots with params }

theorem find?_fill (fs : Functions) (callee other : String)
    (params : List (String × Option Kind)) :
    (fill fs callee params).find? other = if other = callee then
      (fs.find? other).map fun slots => { slots with params } else fs.find? other :=
  Functions.find?_update fs callee other _ fun _ => rfl

/-- A call fills the open slots of its callee with the kinds of its arguments. -/
theorem fill_effect {reason : Reason} {fs : Functions} {callee : String} {slots : Slots}
    {kinds : List Kind} (hslots : fs.find? callee = some slots)
    (hlen : slots.params.length = kinds.length) (hscalar : ∀ kind ∈ kinds, kind.isScalar = true)
    (hreason : ∀ {signatures}, fs.Fits signatures →
      ∀ {i kind}, kinds[i]? = some kind → reason signatures callee i kind) :
    Effect reason fs (fill fs callee (fillParams slots.params kinds)) := by
  have hgrows : fs.Grows (fill fs callee (fillParams slots.params kinds)) := by
    refine Functions.grows_update (fun _ => rfl) fun s hs => ?_
    cases hslots.symm.trans hs
    exact ⟨rfl, rfl, fillParams_grows hlen, .refl _⟩
  refine ⟨hgrows, fun {name s t} hs ht => ?_, fun hproper {name t} ht => ?_,
    fun {signatures} hfits {name i kind} h => ?_⟩
  · rw [find?_fill, hs] at ht
    split at ht <;> cases ht <;> rfl
  · rw [find?_fill] at ht
    split at ht
    · next hname =>
      rw [hname, hslots] at ht
      cases ht
      exact ⟨fillParams_scalar (hproper hslots).params hscalar, (hproper hslots).returns⟩
    · exact hproper ht
  · obtain ⟨s, t, p, hs, hp, ht, hq⟩ := h
    rw [find?_fill] at ht
    split at ht
    · next hname =>
      subst hname
      rw [hslots] at ht hs
      cases hs
      cases ht
      exact hreason (hfits.of_grows hgrows) (fillParams_getElem? hp hq)
    · cases hs.symm.trans ht
      cases hp.symm.trans hq

/-- A call has been read from `s` on: as a value it has this kind, as a statement it stands. -/
structure Called (table : CallTable) (s : State) (callee : String) (args : List Expr)
    (asStatement : Bool) (kind : Kind) (s' : State) : Prop where
  frame : s'.frame = s.frame.readAll (Expr.varsAll args)
  scalar : asStatement = false → kind.isScalar = true
  hasKind : asStatement = false → ∀ {signatures}, s'.functions.Fits signatures →
    HasKind ⟨table, signatures⟩ (s.frame.scope.kind? table) (.call callee args) kind
  stands : ∀ {signatures}, s'.functions.Fits signatures →
    CallStands ⟨table, signatures⟩ (s.frame.scope.kind? table) callee args

section Calls

variable {env : Env} {s : State} {callee : String} {line : Nat} {asStatement : Bool}
  {args : List Expr} {argKinds : Infer (List Kind)}

/-- The reason of what a call of `callee` with these arguments fills. -/
abbrev CallReason (env : Env) (s : State) (callee : String) (args : List Expr) : Reason :=
  FromCall env.table s.frame.scope ((callee, args) :: Expr.callsAll args)

theorem userCall_runs (hs : s.Proper) (hbody : s.frame.scope.isModule = false)
    (hknown : s.functions.contains callee = true)
    (hargs : Runs (CallReason env s callee args) argKinds s (Values env.table s args)) :
    Runs (CallReason env s callee args) (userCall callee line asStatement argKinds) s
      (Called env.table s callee args asStatement) := by
  unfold userCall
  refine .bind hargs fun kinds s₁ heffect hvalues => .get_bind ?_
  obtain ⟨slots, hslots⟩ : ∃ slots, s₁.functions.find? callee = some slots := by
    rw [← Functions.contains_iff, heffect.grows.contains_eq]
    exact hknown
  rw [hslots]
  refine .check .mismatch fun hlen => ?_
  rw [ne_eq, not_not] at hlen
  refine .bind (matchParams_runs callee line slots.params 1 kinds s₁) ?_
  rintro filled s₂ _ ⟨hfunctions, hframe, hfilled⟩
  obtain ⟨rfl, haccepts⟩ := hfilled hlen
  rw [← hfunctions] at hslots
  have hvalues' : ∀ {signatures}, s₂.functions.Fits signatures →
      List.Forall₂ (HasKind ⟨env.table, signatures⟩ (s.frame.scope.kind? env.table)) args kinds :=
    fun hfits => hvalues.hasKinds (hfunctions ▸ hfits)
  have hfills : Effect (CallReason env s callee args) s₂.functions
      (fill s₂.functions callee (fillParams slots.params kinds)) := by
    refine fill_effect hslots hlen hvalues.scalar fun {signatures} hfits {i kind} hi => ?_
    have hkinds := hvalues' hfits
    obtain ⟨hi', rfl⟩ := List.getElem?_eq_some_iff.mp hi
    have hlt : i < args.length := hkinds.length_eq ▸ hi'
    exact ⟨hbody, args, args[i], List.mem_cons_self .., List.getElem?_eq_getElem hlt,
      hkinds.get hlt hi'⟩
  refine .bind (.modify hfills (Q := fun _ s₃ => s₃ = { s₂ with
    functions := fill s₂.functions callee (fillParams slots.params kinds) }) rfl) ?_
  rintro _ _ heffect₃ rfl
  refine (callResult_runs callee line asStatement slots.returns).imp ?_
  rintro kind _ _ ⟨rfl, hresult⟩
  have hcall : ∀ {signatures},
      (fill s₂.functions callee (fillParams slots.params kinds)).Fits signatures →
      ∃ signature : Signature, SlotGrows slots.returns (some signature.returns) ∧
        CallGives ⟨env.table, signatures⟩ callee kinds signature.returns := by
    intro signatures hfits
    obtain ⟨signature, hsig, hfit⟩ := hfits.some (s := { slots with
      params := fillParams slots.params kinds }) (by rw [find?_fill, if_pos rfl, hslots]; rfl)
    exact ⟨signature, hfit.returns, .user hsig (accepts_of_fillParams haccepts hfit.params)⟩
  have hscalar : asStatement = false → kind.isScalar = true := by
    intro hvalue
    obtain ⟨hreturns, hvoid⟩ := hresult hvalue
    have hproper := heffect.proper hs.functions (hfunctions ▸ hslots)
    exact (hproper.returns kind hreturns).resolve_left hvoid
  refine ⟨hframe.trans hvalues.frame, hscalar, fun hvalue {signatures} hfits => ?_,
    fun {signatures} hfits => ?_⟩
  · obtain ⟨signature, hreturns, hgives⟩ := hcall hfits
    obtain rfl := Option.some.inj (hreturns.of_some (hresult hvalue).1)
    exact .call (hvalues' (hfits.of_grows heffect₃.grows)) hgives (hscalar hvalue)
  · obtain ⟨signature, _, hgives⟩ := hcall hfits
    exact .known (hvalues' (hfits.of_grows heffect₃.grows)) hgives

theorem unknownCall_runs {reason : Reason} (hfunction : s.functions.contains callee = false)
    (hrule : env.table.call? callee = none)
    (hargs : Runs reason argKinds s (Values env.table s args)) :
    Runs reason (unknownCall callee line asStatement argKinds) s
      (Called env.table s callee args asStatement) := by
  unfold unknownCall
  refine .bind hargs fun kinds s₁ heffect hvalues =>
    .getScope_bind (.check .unsupported fun _ => ?_)
  refine .ite (fun hstatement => ?_) fun _ => .unsupported
  refine .bind (.emit (Q := fun _ s₂ =>
    s₂.functions = s₁.functions ∧ s₂.frame = s₁.frame) ⟨rfl, rfl⟩) ?_
  rintro _ s₂ heffect₂ ⟨hfunctions, hframe⟩
  refine .pure ⟨hframe.trans hvalues.frame, ?_, ?_, fun {signatures} hfits => ?_⟩
  · intro hvalue
    rw [hvalue] at hstatement
    cases hstatement
  · intro hvalue
    rw [hvalue] at hstatement
    cases hstatement
  · have hnone : s.functions.find? callee = none := by
      simpa [Functions.contains] using hfunction
    have hfits₁ := hfits.of_grows heffect₂.grows
    exact .unknown (hvalues.hasKinds hfits₁) ((hfits₁.of_grows heffect.grows).none hnone) hrule

/-- A runtime call whose rule reads no values is one that asks for the length of a list variable. -/
theorem ruleArguments_runs {reason : Reason} {rule : CallRule} (hrule : rule.Sound)
    (harity : ∀ n, rule.arity = some n → args.length = n)
    (hargs : Runs reason argKinds s (Values env.table s args)) :
    Runs reason (ruleArguments env rule line args argKinds) s fun kinds s' =>
      (rule.form ≠ .loopRange ∧ rule.form ≠ .listLength ∧ Values env.table s args kinds s') ∨
      (rule.form = .listLength ∧ ∃ list element n, args = [.name list] ∧
        s'.frame = s.frame.readAll [list] ∧ s'.functions = s.functions ∧
        s.frame.scope.kind? env.table list = some (.list element n)) := by
  unfold ruleArguments
  split
  · exact .unsupported
  · next hform =>
    obtain ⟨hone, _⟩ := hrule.listLength hform
    have hlen := harity 1 hone
    split
    · cases hlen
    · next list rest =>
      obtain rfl : rest = [] := List.length_eq_zero_iff.mp (Nat.succ.inj hlen)
      refine .bind (elementKind_runs env list line) ?_
      rintro element s₁ _ ⟨hframe, hfunctions, n, hkind⟩
      exact .pure (.inr ⟨hform, list, element, n, rfl, hframe, hfunctions, hkind⟩)
    · exact .bind hargs fun _ _ _ _ => .mismatch
  · next hrange hlength =>
    exact hargs.imp fun kinds s' _ hvalues => .inl ⟨hrange, hlength, hvalues⟩

theorem checkArity_runs {reason : Reason} {arity : Option Nat} :
    Runs reason (checkArity callee line args.length arity) s fun _ s' =>
      s' = s ∧ ∀ n, arity = some n → args.length = n := by
  unfold checkArity
  cases arity with
  | none => exact .pure ⟨rfl, nofun⟩
  | some n =>
    refine .ite (fun _ => .mismatch) fun hlen => .pure ⟨rfl, ?_⟩
    rintro _ ⟨⟩
    simpa [eq_comm] using hlen

/-- The result of a runtime call that reads its arguments as values. -/
theorem ruleResult_runs {reason : Reason} (table : CallTable) {rule : CallRule} (hrule : rule.Sound)
    {kinds : List Kind} (htakes : rule.Takes kinds) :
    Runs reason (ruleResult rule callee line asStatement kinds) s fun kind s' =>
      s' = s ∧ (asStatement = false → kind.isScalar = true) ∧
        ∀ {signatures : Signatures}, signatures callee = none →
          table.call? callee = some rule → CallGives ⟨table, signatures⟩ callee kinds kind := by
  unfold ruleResult
  split
  · next hreturns =>
    refine .ite (fun h => .pure ⟨rfl, fun hnot => ?_, fun hsig hcall => ?_⟩) fun _ => .unsupported
    · rw [hnot] at h
      cases h
    · exact .nothing hsig hcall htakes hreturns
  · next kind hreturns =>
    exact .pure ⟨rfl, fun _ => hrule.fixed hreturns,
      fun hsig hcall => .fixed hsig hcall htakes hreturns⟩
  · next hreturns =>
    obtain ⟨n, hn⟩ := hrule.promoted hreturns
    have hne : kinds ≠ [] := by
      rintro rfl
      cases htakes.arity _ hn
    rcases promoteAll_cases callee line kinds none nofun hne with ⟨kind, hk, hw⟩ | ⟨e, he, hcalm⟩
    · rw [hk]
      exact .pure ⟨rfl, fun _ => hw.isScalar,
        fun hsig hcall => .promoted hsig hcall htakes hreturns hw⟩
    · rw [he]
      exact .fail hcalm

theorem runtimeCall_runs {reason : Reason} {rule : CallRule} (htable : env.table.Sound)
    (hfunction : s.functions.contains callee = false) (hcall : env.table.call? callee = some rule)
    (hargs : Runs reason argKinds s (Values env.table s args)) :
    Runs reason (runtimeCall env rule callee line asStatement args argKinds) s
      (Called env.table s callee args asStatement) := by
  have hrule := htable.call hcall
  have hnone : s.functions.find? callee = none := by
    simpa [Functions.contains] using hfunction
  unfold runtimeCall
  refine .bind checkArity_runs ?_
  rintro _ s _ ⟨rfl, harity⟩
  refine .bind (ruleArguments_runs hrule harity hargs) fun kinds s₁ heffect hread => ?_
  have hsig : ∀ {signatures : Signatures}, s₁.functions.Fits signatures →
      signatures callee = none := fun hfits => (hfits.of_grows heffect.grows).none hnone
  refine .check .unsupported fun hstring => ?_
  rcases hread with ⟨hrange, hlength, hvalues⟩ | ⟨hform, list, element, n, rfl, hframe, _, hkind⟩
  · have htakes : rule.Takes kinds := by
      refine ⟨fun n hn => hvalues.length.trans (harity n hn), hrange, hlength,
        fun hcast hreturns => ?_⟩
      simp only [refusesString, hcast, BEq.rfl, Bool.true_and, Bool.and_eq_true, Bool.or_eq_true,
        beq_iff_eq] at hstring
      exact fun hhead => hstring ⟨hreturns, hhead⟩
    refine (ruleResult_runs env.table hrule htakes).imp ?_
    rintro kind s₁ _ ⟨rfl, hscalar, hgives⟩
    exact ⟨hvalues.frame, hscalar,
      fun hvalue {_} hfits =>
        .call (hvalues.hasKinds hfits) (hgives (hsig hfits) hcall) (hscalar hvalue),
      fun {_} hfits => .known (hvalues.hasKinds hfits) (hgives (hsig hfits) hcall)⟩
  · obtain ⟨_, kind, hreturns⟩ := hrule.listLength hform
    have hscalar := hrule.fixed hreturns
    have hlength : ∀ {signatures : Signatures}, s₁.functions.Fits signatures →
        HasKind ⟨env.table, signatures⟩ (s.frame.scope.kind? env.table)
          (.call callee [.name list]) kind :=
      fun hfits => .length (hsig hfits) hcall hform hreturns hscalar hkind
    unfold ruleResult
    rw [hreturns]
    exact .pure ⟨hframe, fun _ => hscalar, fun _ {_} hfits => hlength hfits,
      fun {_} hfits => .value (hlength hfits)⟩

theorem callKind_runs (htable : env.table.Sound) (hs : s.Proper)
    (hargs : Runs (FromCall env.table s.frame.scope (Expr.callsAll args)) argKinds s
      (Values env.table s args)) :
    Runs (CallReason env s callee args) (callKind env callee line asStatement args argKinds) s
      (Called env.table s callee args asStatement) := by
  have hargs' : Runs (CallReason env s callee args) argKinds s (Values env.table s args) :=
    hargs.because fun _ _ _ _ h => h.mono rfl rfl (List.subset_cons_self ..)
  unfold callKind
  refine .get_bind (.ite (fun hfunction => ?_) fun hfunction => ?_)
  · refine .getScope_bind (.check .unsupported fun hbody => ?_)
    exact userCall_runs hs (by simpa using hbody) hfunction hargs'
  · have hfunction' : s.functions.contains callee = false := by simpa using hfunction
    split
    · next hcall => exact unknownCall_runs hfunction' hcall hargs'
    · next rule hcall => exact runtimeCall_runs htable hfunction' hcall hargs'

end Calls

/-- The inferencer reads the expression `e` rightly, from every state. -/
def ReadsRightly (env : Env) (line : Nat) (e : Expr) : Prop :=
  ∀ s : State, s.Proper → Runs (FromCall env.table s.frame.scope e.calls) (exprKind env line e) s
    (Value env.table s e)

section Expressions

variable {env : Env} {line : Nat}

theorem State.Proper.of_effect {reason : Reason} {s s' : State} (hs : s.Proper)
    (heffect : Effect reason s.functions s'.functions) {names : List String}
    (hframe : s'.frame = s.frame.readAll names) : s'.Proper :=
  ⟨heffect.proper hs.functions, hframe ▸ hs.frame.readAll names⟩

theorem exprKinds_runs {es : List Expr} (hes : ∀ e ∈ es, ReadsRightly env line e) (s : State)
    (hs : s.Proper) :
    Runs (FromCall env.table s.frame.scope (Expr.callsAll es)) (exprKinds env line es) s
      (Values env.table s es) := by
  induction es generalizing s with
  | nil => exact .pure ⟨rfl, rfl, nofun, fun _ => .nil⟩
  | cons e es ih =>
    obtain ⟨he, hes⟩ := List.forall_mem_cons.mp hes
    have hhead : Runs (FromCall env.table s.frame.scope (Expr.callsAll (e :: es)))
        (exprKind env line e) s (Value env.table s e) :=
      (he s hs).because fun _ _ _ _ h => h.mono rfl rfl (List.subset_append_left ..)
    refine .bind hhead fun kind s₁ heffect hvalue => ?_
    have hs₁ := hs.of_effect heffect hvalue.frame
    have hscope : s₁.frame.scope = s.frame.scope.readAll e.vars := by rw [hvalue.frame]; rfl
    have htail : Runs (FromCall env.table s.frame.scope (Expr.callsAll (e :: es)))
        (exprKinds env line es) s₁ (Values env.table s₁ es) :=
      (ih hes s₁ hs₁).because fun _ _ _ _ h =>
        h.mono (by simp [hscope]) (by simp [hscope]) (List.subset_append_right ..)
    refine .bind htail fun kinds s₂ heffect' hvalues => .pure ?_
    refine ⟨?_, by simp [hvalues.length], List.forall_mem_cons.mpr ⟨hvalue.scalar, hvalues.scalar⟩,
      fun {_} hfits => .cons (hvalue.hasKind (hfits.of_grows heffect'.grows)) ?_⟩
    · rw [hvalues.frame, hvalue.frame, Frame.read, ← Frame.readAll_append]
      rfl
    · have hkinds := hvalues.hasKinds hfits
      rwa [hscope, Scope.kind?_readAll] at hkinds

/-- Reading goes on in the frame that reading some names has left. -/
theorem ReadsRightly.after {e : Expr} (he : ReadsRightly env line e) {s s₁ : State}
    {names : List String} {calls : List (String × List Expr)} (hs₁ : s₁.Proper)
    (hframe : s₁.frame = s.frame.readAll names) (hcalls : e.calls ⊆ calls) :
    Runs (FromCall env.table s.frame.scope calls) (exprKind env line e) s₁ fun kind s' =>
      s'.frame = s.frame.readAll (names ++ e.vars) ∧ kind.isScalar = true ∧
        ∀ {signatures}, s'.functions.Fits signatures →
          HasKind ⟨env.table, signatures⟩ (s.frame.scope.kind? env.table) e kind := by
  have hscope : s₁.frame.scope = s.frame.scope.readAll names := by rw [hframe]; rfl
  refine ((he s₁ hs₁).because fun _ _ _ _ h =>
    h.mono (by simp [hscope]) (by simp [hscope]) hcalls).imp fun kind s' _ hvalue => ?_
  refine ⟨?_, hvalue.scalar, fun {_} hfits => ?_⟩
  · rw [hvalue.frame, hframe, Frame.readAll_append]
    rfl
  · have hkind := hvalue.hasKind hfits
    rwa [hscope, Scope.kind?_readAll] at hkind

/-- The inferencer gives each expression its kind by the rules, or fails with an error that is no
broken condition. -/
theorem exprKind_runs (htable : env.table.Sound) (e : Expr) : ReadsRightly env line e := by
  intro s hs
  induction e generalizing s with
  | literal value =>
    unfold exprKind
    exact .pure ⟨rfl, by cases value <;> rfl, fun _ => .literal value⟩
  | name id =>
    unfold exprKind
    refine .bind (resolve_runs env id line) ?_
    rintro kind s₁ _ ⟨hframe, _, hkind⟩
    refine .check .unsupported fun hlist => .pure ?_
    have hscalar := Kind.isScalar_of_isStorable (hs.frame.scope.kind? htable hkind)
      (by simpa using hlist)
    exact ⟨hframe, hscalar, fun _ => .name hkind hscalar⟩
  | unary sign operand ih =>
    unfold exprKind
    refine .bind (ih s hs) fun kind s₁ _ hvalue => ?_
    refine .check .mismatch fun hnumeric => .pure ?_
    exact ⟨hvalue.frame, hvalue.scalar,
      fun hfits => .unary (hvalue.hasKind hfits) (by simpa using hnumeric)⟩
  | binary left op right ihl ihr =>
    unfold exprKind
    refine .bind ((ihl s hs).because fun _ _ _ _ h =>
      h.mono rfl rfl (List.subset_append_left ..)) fun a s₁ heffect hleft => ?_
    refine .bind (ReadsRightly.after ihr (hs.of_effect heffect hleft.frame) hleft.frame
      (List.subset_append_right ..)) ?_
    rintro b s₂ heffect' ⟨hframe, _, hright⟩
    rcases binaryKind_cases op a b line with ⟨kind, hk, hop⟩ | ⟨e, he, hcalm⟩
    · rw [hk]
      exact .pure ⟨hframe, hop.isScalar, fun hfits =>
        .binary (hleft.hasKind (hfits.of_grows heffect'.grows)) (hright hfits) hop⟩
    · rw [he]
      exact .fail hcalm
  | call callee args ih =>
    unfold exprKind
    refine (callKind_runs htable hs (exprKinds_runs ih s hs)).imp fun kind s' _ hcall => ?_
    exact ⟨hcall.frame, hcall.scalar rfl, hcall.hasKind rfl⟩
  | index list position ih =>
    unfold exprKind
    refine .bind (elementKind_runs env list line) ?_
    rintro element s₁ heffect ⟨hframe, _, n, hlist⟩
    refine .bind (ReadsRightly.after ih (hs.of_effect heffect hframe) hframe
      (List.Subset.refl _)) ?_
    rintro kind s₂ _ ⟨hframe', _, hposition⟩
    refine .check .mismatch fun hinteger => .pure ?_
    have helement : element.isScalar = true := hs.frame.scope.kind? htable hlist
    exact ⟨hframe', helement,
      fun hfits => .index hlist helement (hposition hfits) (by simpa using hinteger)⟩
  | list items ih =>
    unfold exprKind
    exact .unsupported

end Expressions

end Sketchwright.Inference
