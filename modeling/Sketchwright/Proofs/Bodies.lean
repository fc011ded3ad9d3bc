import Sketchwright.Inference.Body
import Sketchwright.Proofs.Resolution
import Sketchwright.Proofs.Values

/-! What the inferencer does with a statement is what the statement rules say, under any complete
signatures that agree with what is known of the functions afterwards. A slot that is filled on the
way comes from a call that every complete resolution of the statement reads. -/

namespace Sketchwright

mutual

/-- No function is defined inside the statement. -/
def Stmt.isPlain : Stmt → Bool
  | .function .. => false
  | .conditional _ _ thenBody elseBody => arePlain thenBody && arePlain elseBody
  | .loop _ _ _ _ body => arePlain body
  | _ => true

def arePlain : List Stmt → Bool
  | [] => true
  | stmt :: stmts => stmt.isPlain && arePlain stmts

end

namespace Inference

section Assignments

variable {env : Env} {s : State} {name : String} {line : Nat} {declared : Option Kind}

theorem boundKind_runs {reason : Reason} {why : Unbound} :
    Runs reason (boundKind name line why) s fun existing s' =>
      s' = s ∧ existing = s.frame.scope.bound? name ∧
        (existing = none → s.frame.scope.Free name) := by
  unfold boundKind
  refine .getScope_bind ?_
  split
  · next kind hm => exact .pure ⟨rfl, by simp [Scope.bound?, hm], nofun⟩
  · next kind hm =>
    refine .ite (fun hshared => .pure ⟨rfl, by simp [Scope.bound?, hm, hshared], nofun⟩)
      fun hshared => .ite (fun _ => .unbound) fun hseen => ?_
    have hbound : s.frame.scope.bound? name = none := by simp [Scope.bound?, hm, hshared]
    exact .pure ⟨rfl, hbound.symm, fun _ => ⟨hbound, fun _ => by simpa using hseen⟩⟩
  · next defined hm =>
    refine .ite (fun _ => .unbound) fun hseen => ?_
    have hbound : s.frame.scope.bound? name = none := by simp [Scope.bound?, hm]
    exact .pure ⟨rfl, hbound.symm, fun _ => ⟨hbound, fun _ => by simpa using hseen⟩⟩
  · next hm =>
    have hbound : s.frame.scope.bound? name = none := by simp [Scope.bound?, hm]
    exact .pure ⟨rfl, hbound.symm, fun _ => ⟨hbound, fun hne => absurd hm hne⟩⟩

theorem checkLoopVar_runs {reason : Reason} : Runs reason (checkLoopVar name line) s fun _ s' =>
    s' = s ∧ name ∉ s.frame.loopVars := by
  unfold checkLoopVar
  refine .get_bind (.ite (fun _ => .unsupported) fun h => .pure ⟨rfl, ?_⟩)
  simpa using h

theorem checkAssignable_runs {reason : Reason} : Runs reason (checkAssignable env name line) s
    fun _ s' => s' = s ∧ env.table.isKnown name = false ∧ name ∉ s.frame.loopVars := by
  unfold checkAssignable
  refine .getScope_bind (.get_bind (.check .unsupported fun _ => .check .unsupported fun h => ?_))
  exact checkLoopVar_runs.imp fun _ _ _ hvar => ⟨hvar.1, by simpa using h, hvar.2⟩

theorem reassign_runs {reason : Reason} {existing kind : Kind} :
    Runs reason (reassign name existing kind declared line) s fun binding s' =>
      s' = s ∧ binding = .reassign ∧ kind = existing ∧ kind.isList = false ∧
        (declared = none ∨ declared = some existing) := by
  unfold reassign
  refine .check .unsupported fun hlist => ?_
  have hredeclared : Runs reason (checkRedeclared name existing line declared) s fun _ s' =>
      s' = s ∧ (declared = none ∨ declared = some existing) := by
    unfold checkRedeclared
    split
    · refine .ite (fun _ => .mismatch) fun h => .pure ⟨rfl, .inr ?_⟩
      rw [not_ne_iff.mp h]
    · exact .pure ⟨rfl, .inl rfl⟩
  refine .bind hredeclared ?_
  rintro _ s _ ⟨rfl, hdeclared⟩
  refine .check .mismatch fun hkind => .pure ⟨rfl, rfl, by simpa using hkind, ?_, hdeclared⟩
  simp only [Bool.or_eq_true, not_or, Bool.not_eq_true] at hlist
  exact hlist.2

theorem checkDeclared_runs {reason : Reason} {kind : Kind} :
    Runs reason (checkDeclared name kind line declared) s fun _ s' =>
      s' = s ∧ Declares declared kind (declared.getD kind) := by
  unfold checkDeclared
  split
  · refine .ite (fun _ => .mismatch) fun h => .pure ⟨rfl, ?_⟩
    simp only [Bool.or_eq_true, Bool.not_eq_true', not_or, Bool.not_eq_true,
      Bool.not_eq_false] at h
    exact .annotated h.1 h.2
  · exact .pure ⟨rfl, .inferred⟩

theorem declare_runs {reason : Reason} {kind : Kind} :
    Runs reason (declare name kind declared line) s fun binding s' =>
      s'.functions = s.functions ∧ ∃ target, Declares declared kind target ∧
        (s.frame.depth = 0 ∧ binding = .declare target ∧
            s'.frame = s.frame.declare name target line ∨
          s.frame.depth ≠ 0 ∧ binding = .reassign ∧
            s'.frame = s.frame.hoist name target line) := by
  unfold declare
  refine .bind checkDeclared_runs ?_
  rintro _ s _ ⟨rfl, hdeclares⟩
  refine .bind (.modifyScope (Q := fun _ s₁ => s₁ =
    { s with frame := s.frame.declare name (declared.getD kind) line }) rfl) ?_
  rintro _ _ _ rfl
  refine .get_bind (.ite (fun hdepth => .pure ?_) fun hdepth => ?_)
  · exact ⟨rfl, _, hdeclares, .inl ⟨hdepth, rfl, rfl⟩⟩
  · refine .bind (.modifyFrame (Q := fun _ s₁ => s₁ =
      { s with frame := s.frame.hoist name (declared.getD kind) line }) rfl) ?_
    rintro _ _ _ rfl
    exact .pure ⟨rfl, _, hdeclares, .inr ⟨hdepth, rfl, rfl⟩⟩

theorem itemsKind_runs (htable : env.table.Sound) (items : List Expr) (first : Option Kind)
    (s : State) (hs : s.Proper) :
    Runs (FromCall env.table s.frame.scope (Expr.callsAll items)) (itemsKind env line first items) s
      fun kind s' => s'.frame = s.frame.readAll (Expr.varsAll items) ∧
        (first = none → items ≠ [] ∧ kind.isScalar = true) ∧
        (∀ known, first = some known → kind = known) ∧
        ∀ {signatures}, s'.functions.Fits signatures → ∀ item ∈ items,
          HasKind ⟨env.table, signatures⟩ (s.frame.scope.kind? env.table) item kind := by
  induction items generalizing first s with
  | nil =>
    unfold itemsKind
    cases first with
    | none => exact .unsupported
    | some kind =>
      refine .pure ⟨rfl, fun h => ?_, fun _ h => Option.some.inj h, fun _ => List.forall_mem_nil _⟩
      cases h
  | cons item items ih =>
    unfold itemsKind
    refine .check .unsupported fun _ => ?_
    refine .bind ((exprKind_runs htable item s hs).because fun _ _ _ _ h =>
      h.mono rfl rfl (List.subset_append_left ..)) fun kind s₁ heffect hvalue => ?_
    have hscope : s₁.frame.scope = s.frame.scope.readAll item.vars := by rw [hvalue.frame]; rfl
    -- the further items, once the kind of the first one is known
    have htail : ∀ known, Runs (FromCall env.table s.frame.scope (Expr.callsAll (item :: items)))
        (itemsKind env line (some known) items) s₁ fun last s' => s'.frame =
            s.frame.readAll (Expr.varsAll (item :: items)) ∧ last = known ∧
          ∀ {signatures}, s'.functions.Fits signatures →
            HasKind ⟨env.table, signatures⟩ (s.frame.scope.kind? env.table) item kind ∧
            ∀ item ∈ items,
              HasKind ⟨env.table, signatures⟩ (s.frame.scope.kind? env.table) item last := by
      intro known
      refine ((ih (some known) s₁ (hs.of_effect heffect hvalue.frame)).because fun _ _ _ _ h =>
        h.mono (by simp [hscope]) (by simp [hscope]) (List.subset_append_right ..)).imp ?_
      rintro last s₂ heffect' ⟨hframe, _, hknown, hkinds⟩
      refine ⟨?_, hknown known rfl, fun {_} hfits =>
        ⟨hvalue.hasKind (hfits.of_grows heffect'.grows), fun i hi => ?_⟩⟩
      · rw [hframe, hvalue.frame, Frame.read, ← Frame.readAll_append]
        rfl
      · have hkind := hkinds hfits i hi
        rwa [hscope, Scope.kind?_readAll] at hkind
    cases first with
    | none =>
      refine (htail kind).imp ?_
      rintro _ s₂ _ ⟨hframe, rfl, hkinds⟩
      refine ⟨hframe, fun _ => ⟨List.cons_ne_nil _ _, hvalue.scalar⟩, fun _ h => ?_,
        fun {_} hfits => List.forall_mem_cons.mpr (hkinds hfits)⟩
      cases h
    | some expected =>
      refine .check .unsupported fun hkind => (htail expected).imp ?_
      obtain rfl : kind = expected := by simpa using hkind
      rintro _ s₂ _ ⟨hframe, rfl, hkinds⟩
      refine ⟨hframe, fun h => ?_, fun _ h => Option.some.inj h,
        fun {_} hfits => List.forall_mem_cons.mpr (hkinds hfits)⟩
      cases h

/-- An assigned value has been read from `s` on. -/
structure AssignedValue (table : CallTable) (s : State) (e : Expr) (kind : Kind) (s' : State) :
    Prop where
  frame : s'.frame = s.frame.read e
  storable : kind.isStorable = true
  depth : kind.isList = true → s.frame.depth = 0
  assigned : ∀ {signatures}, s'.functions.Fits signatures →
    Assigned ⟨table, signatures⟩ (s.frame.scope.kind? table) e kind

theorem AssignedValue.hasKind {table : CallTable} {s s' : State} {e : Expr} {kind : Kind}
    (h : AssignedValue table s e kind s') (hlist : kind.isList = false) {signatures : Signatures}
    (hfits : s'.functions.Fits signatures) :
    HasKind ⟨table, signatures⟩ (s.frame.scope.kind? table) e kind := by
  cases h.assigned hfits with
  | value hkind => exact hkind
  | list => cases hlist

theorem assignedKind_runs (htable : env.table.Sound) (value : Expr) (hs : s.Proper) :
    Runs (FromCall env.table s.frame.scope value.calls) (assignedKind env line value) s
      (AssignedValue env.table s value) := by
  unfold assignedKind
  split
  · next items =>
    refine .get_bind (.check .unsupported fun hdepth => ?_)
    refine .bind (itemsKind_runs htable items none s hs) ?_
    rintro kind s₁ _ ⟨hframe, hitems, _, hkinds⟩
    obtain ⟨hne, hscalar⟩ := hitems rfl
    exact .pure ⟨hframe, hscalar, fun _ => by simpa using hdepth,
      fun {_} hfits => .list hne (hkinds hfits)⟩
  · refine (exprKind_runs htable value s hs).imp fun kind s₁ _ hvalue => ?_
    have hlist := Kind.not_list_of_isScalar hvalue.scalar
    exact ⟨hvalue.frame, Kind.isStorable_of_isScalar hvalue.scalar,
      fun h => absurd h (by simp [hlist]), fun {_} hfits => .value (hvalue.hasKind hfits)⟩

/-- A statement has been resolved from `s` on. -/
structure Resolved (env : Env) (returns : Option Kind) (s : State) (stmt stmt' : Stmt)
    (s' : State) : Prop where
  proper : s'.frame.Proper
  rules : ∀ {signatures}, s'.functions.Fits signatures → ∃ readings,
    Resolves ⟨env.table, signatures⟩ returns s.frame stmt stmt' s'.frame readings

/-- Every complete resolution of a statement reads a call that fills the slot. -/
def FromReading (table : CallTable) (returns : Option Kind) (fr : Frame) (stmt : Stmt) : Reason :=
  fun signatures name i kind => ∀ {stmt' fr' readings},
    Resolves ⟨table, signatures⟩ returns fr stmt stmt' fr' readings →
      ∃ x ∈ readings, FromCall table x.scope x.expr.calls signatures name i kind

theorem FromReading.of_call {table : CallTable} {returns : Option Kind} {fr : Frame} {stmt : Stmt}
    {scope : Scope} {e : Expr} {signatures : Signatures} {i : Nat} {kind : Kind}
    (h : FromCall table scope e.calls signatures name i kind)
    (hread : ∀ {stmt' fr' readings},
      Resolves ⟨table, signatures⟩ returns fr stmt stmt' fr' readings →
        ∃ x ∈ readings, x.expr = e ∧ x.scope.isModule = scope.isModule ∧
          x.scope.kind? table = scope.kind? table) :
    FromReading table returns fr stmt signatures name i kind := by
  intro _ _ _ hresolves
  obtain ⟨x, hx, rfl, hmodule, hkinds⟩ := hread hresolves
  exact ⟨x, hx, h.mono hmodule.symm hkinds.symm (List.Subset.refl _)⟩

theorem Declares.isScalar {found kind : Kind} (h : Declares declared found kind)
    (hfound : found.isScalar = true) : kind.isScalar = true := by
  cases h with
  | inferred => exact hfound
  | annotated _ haccepts => exact Kind.isScalar_of_accepted haccepts hfound

theorem Declares.isStorable {found kind : Kind} (h : Declares declared found kind)
    (hfound : found.isStorable = true) : kind.isStorable = true := by
  cases h with
  | inferred => exact hfound
  | annotated hlist haccepts =>
    exact Kind.isStorable_of_isScalar
      (Kind.isScalar_of_accepted haccepts (Kind.isScalar_of_isStorable hfound hlist))

theorem Frame.Proper.declare {fr : Frame} (h : fr.Proper) (name : String) (line : Nat)
    {kind : Kind} (hkind : kind.isStorable = true) : (fr.declare name kind line).Proper :=
  ⟨⟨List.forall_mem_cons.mpr ⟨hkind, h.scope.locals⟩, h.scope.globals⟩, h.hoisted, h.returned⟩

theorem assignName_runs (htable : env.table.Sound) {returns : Option Kind} {value : Expr}
    {b : Binding} (hs : s.Proper) :
    Runs (FromCall env.table s.frame.scope value.calls) (assignName env name value declared line) s
      fun binding s' => Resolved env returns s (.assign line (.name name) value declared b)
        (.assign line (.name name) value declared binding) s' := by
  unfold assignName
  refine .bind checkAssignable_runs ?_
  rintro _ s _ ⟨rfl, hknown, hvar⟩
  refine .bind (assignedKind_runs htable value hs) fun kind s₁ heffect hvalue => ?_
  have hs₁ := hs.of_effect heffect hvalue.frame
  refine .bind boundKind_runs ?_
  rintro existing s₂ _ ⟨rfl, hexisting, hfree⟩
  rw [hvalue.frame] at hexisting hfree
  cases existing with
  | some existing =>
    have hbound : s.frame.scope.bound? name = some existing :=
      (Scope.bound?_readAll _ _ _).symm.trans hexisting.symm
    refine .getScope_bind (.ite (fun _ => .unsupported) fun hbody => ?_)
    refine reassign_runs.imp ?_
    rintro _ _ _ ⟨rfl, rfl, rfl, hlist, hdeclared⟩
    rw [hvalue.frame] at hbody
    refine ⟨hs₁.frame, fun {_} hfits => ?_⟩
    rw [hvalue.frame]
    exact ⟨_, .again (hvalue.hasKind hlist hfits) ⟨hknown, hvar⟩
      (by simpa [Frame.read, Frame.readAll] using hbody) hbound hdeclared⟩
  | none =>
    refine declare_runs.imp ?_
    rintro _ s₃ heffect' ⟨hfunctions, target, hdeclares, hcase⟩
    have hfits₂ : ∀ {signatures}, s₃.functions.Fits signatures → s₂.functions.Fits signatures :=
      fun hfits => hfits.of_grows heffect'.grows
    have hstorable := hdeclares.isStorable hvalue.storable
    have hproper := (hs.frame.readAll value.vars).declare name line hstorable
    rw [hvalue.frame] at hcase
    rcases hcase with ⟨hdepth, rfl, hframe⟩ | ⟨hdepth, rfl, hframe⟩
    · refine ⟨hframe ▸ hproper, fun {_} hfits => ?_⟩
      rw [hframe]
      exact ⟨_, .first (hvalue.assigned (hfits₂ hfits)) ⟨hknown, hvar⟩ (hfree rfl) hdeclares hdepth⟩
    · have hlist : kind.isList = false := by
        cases h : kind.isList with
        | false => rfl
        | true => exact absurd (hvalue.depth h) hdepth
      have hscalar : target.isScalar = true := hdeclares.isScalar
        (Kind.isScalar_of_isStorable hvalue.storable hlist)
      refine ⟨?_, fun {_} hfits => ?_⟩
      · rw [hframe]
        refine ⟨hproper.scope, fun v hv => ?_, hproper.returned⟩
        rcases List.mem_append.mp hv with hv | hv
        · exact hs.frame.hoisted v hv
        · rw [List.mem_singleton.mp hv]
          exact hscalar
      · rw [hframe]
        exact ⟨_, .hoist (hvalue.hasKind hlist (hfits₂ hfits)) ⟨hknown, hvar⟩ (hfree rfl) hdeclares
          hdepth⟩

theorem assignElement_runs (htable : env.table.Sound) {returns : Option Kind} {list : String}
    {position value : Expr} {b : Binding} (hs : s.Proper) :
    Runs (FromReading env.table returns s.frame
        (.assign line (.element list position) value declared b))
      (assignElement env list position value line) s fun binding s' =>
        Resolved env returns s (.assign line (.element list position) value declared b)
          (.assign line (.element list position) value declared binding) s' := by
  have hread : ∀ {signatures stmt' fr' readings}, Resolves ⟨env.table, signatures⟩ returns s.frame
      (.assign line (.element list position) value declared b) stmt' fr' readings →
      readings = [⟨s.frame.scope, .index list position⟩,
        ⟨(s.frame.read (.index list position)).scope, value⟩] := by
    intro _ _ _ _ hresolves
    cases hresolves with
    | element => rfl
    | inert h => cases h
  unfold assignElement
  refine .getScope_bind (.check .unsupported fun hbody => ?_)
  refine .bind (elementKind_runs env list line) ?_
  rintro element s₁ heffect₁ ⟨hframe₁, _, n, hlist⟩
  refine .bind (((exprKind_runs htable position).after (hs.of_effect heffect₁ hframe₁) hframe₁
    (List.Subset.refl _)).because fun {_} hfits {_ _ _} h => ?_) ?_
  · refine FromReading.of_call (e := .index list position) h fun hresolves => ?_
    rw [hread hresolves]
    exact ⟨_, List.mem_cons_self .., rfl, rfl, rfl⟩
  rintro index s₂ heffect₂ ⟨hframe₂, _, hposition⟩
  refine .check .mismatch fun hindex => ?_
  refine .bind (((exprKind_runs htable value).after
    (hs.of_effect (heffect₁.trans heffect₂) hframe₂) hframe₂
    (List.Subset.refl _)).because fun {_} hfits {_ _ _} h => ?_) ?_
  · refine FromReading.of_call h fun hresolves => ?_
    rw [hread hresolves]
    exact ⟨_, List.mem_cons_of_mem _ (List.mem_cons_self ..), rfl,
      Scope.isModule_readAll _ _, Scope.kind?_readAll _ _ _⟩
  rintro kind s₃ heffect₃ ⟨hframe₃, _, hvalue⟩
  refine .check .mismatch fun haccepts => .pure ⟨?_, fun {_} hfits => ?_⟩
  · rw [hframe₃]
    exact hs.frame.readAll _
  · rw [hframe₃, show s.frame.readAll ([list] ++ position.vars ++ value.vars) =
      (s.frame.read (.index list position)).read value from Frame.readAll_append _ _ _]
    exact ⟨_, .element (by simpa using hbody) hlist
      (hposition (hfits.of_grows heffect₃.grows)) (by simpa using hindex) (hvalue hfits)
      (by simpa using haccepts)⟩

end Assignments

section Headers

variable {env : Env} {s : State} {line : Nat}

theorem checkCondition_runs (line : Nat) (htable : env.table.Sound) (condition : Expr)
    (hs : s.Proper) :
    Runs (FromCall env.table s.frame.scope condition.calls) (checkCondition env line condition) s
      fun _ s' => s'.frame = s.frame.read condition ∧ ∀ {signatures},
        s'.functions.Fits signatures → ∃ kind,
          HasKind ⟨env.table, signatures⟩ (s.frame.scope.kind? env.table) condition kind ∧
            kind ≠ .str := by
  unfold checkCondition
  refine .bind (exprKind_runs htable condition s hs) fun kind s₁ _ hvalue => ?_
  refine .ite (fun _ => .mismatch) fun hkind => .pure ⟨hvalue.frame, fun {_} hfits => ?_⟩
  exact ⟨kind, hvalue.hasKind hfits, by rintro rfl; exact hkind rfl⟩

theorem checkBound_runs (htable : env.table.Sound) (bound : Expr) {s₁ : State}
    {names : List String} {calls : List (String × List Expr)} (hs₁ : s₁.Proper)
    (hframe : s₁.frame = s.frame.readAll names) (hcalls : bound.calls ⊆ calls) :
    Runs (FromCall env.table s.frame.scope calls) (checkBound env line bound) s₁ fun _ s' =>
      s'.frame = s.frame.readAll (names ++ bound.vars) ∧ ∀ {signatures},
        s'.functions.Fits signatures → ∃ kind,
          HasKind ⟨env.table, signatures⟩ (s.frame.scope.kind? env.table) bound kind ∧
            kind.isInteger = true := by
  unfold checkBound
  refine .bind ((exprKind_runs htable bound).after hs₁ hframe hcalls) ?_
  rintro kind s₂ _ ⟨hframe₂, _, hkind⟩
  refine .ite (fun _ => .mismatch) fun hinteger => .pure ⟨hframe₂, fun {_} hfits => ?_⟩
  exact ⟨kind, hkind hfits, by simpa using hinteger⟩

theorem checkBounds_runs (line : Nat) (htable : env.table.Sound) (bounds : Bounds)
    (hs : s.Proper) :
    Runs (FromCall env.table s.frame.scope (Expr.callsAll bounds.exprs))
      (checkBounds env line bounds) s fun _ s' =>
        s'.frame = s.frame.readAll (Expr.varsAll bounds.exprs) ∧ ∀ {signatures},
          s'.functions.Fits signatures → ∀ e ∈ bounds.exprs, ∃ kind,
            HasKind ⟨env.table, signatures⟩ (s.frame.scope.kind? env.table) e kind ∧
              kind.isInteger = true := by
  obtain ⟨start, stop, step⟩ := bounds
  unfold checkBounds
  cases start with
  | none =>
    refine (checkBound_runs htable stop hs (Frame.readAll_nil s.frame).symm
      (by simp [Bounds.exprs, Expr.callsAll])).imp ?_
    rintro _ s' _ ⟨hframe, hstop⟩
    refine ⟨by simpa [Bounds.exprs, Expr.varsAll] using hframe, fun {_} hfits => ?_⟩
    simpa [Bounds.exprs] using hstop hfits
  | some start =>
    refine .bind (checkBound_runs htable start hs (Frame.readAll_nil s.frame).symm
      (by simp [Bounds.exprs, Expr.callsAll])) ?_
    rintro _ s₁ heffect ⟨hframe, hstart⟩
    refine (checkBound_runs htable stop (hs.of_effect heffect hframe) hframe
      (by simp [Bounds.exprs, Expr.callsAll])).imp ?_
    rintro _ s' heffect' ⟨hframe', hstop⟩
    refine ⟨by simpa [Bounds.exprs, Expr.varsAll] using hframe', fun {_} hfits => ?_⟩
    have hstart' := hstart (hfits.of_grows heffect'.grows)
    simpa [Bounds.exprs] using ⟨hstart', hstop hfits⟩

theorem bindLoopVar_runs {reason : Reason} (var : String) :
    Runs reason (bindLoopVar var line) s fun binding s' =>
      var ∉ s.frame.loopVars ∧
        (s.frame.scope.bound? var = some .int ∧ binding = .reassign ∧ s' = s ∨
          s.frame.scope.Free var ∧ binding = .declare .int ∧
            s' = { s with frame := s.frame.declare var .int line }) := by
  unfold bindLoopVar
  refine .bind checkLoopVar_runs ?_
  rintro _ s _ ⟨rfl, hvar⟩
  refine .bind boundKind_runs ?_
  rintro existing s _ ⟨rfl, hexisting, hfree⟩
  cases existing with
  | some kind =>
    refine .check .mismatch fun hkind => .pure ⟨hvar, .inl ⟨?_, rfl, rfl⟩⟩
    rw [← hexisting, not_ne_iff.mp hkind]
  | none =>
    refine .bind (.modifyScope (Q := fun _ s₁ => s₁ =
      { s with frame := s.frame.declare var .int line }) rfl) ?_
    rintro _ _ _ rfl
    exact .pure ⟨hvar, .inr ⟨hfree rfl, rfl, rfl⟩⟩

theorem checkReturned_runs {reason : Reason} {owner : Owner} (kind : Kind) :
    Runs reason (checkReturned owner kind line) s fun _ s' => ∃ after,
      Returned owner.returns s.frame.returned kind after ∧
        s' = { s with frame := { s.frame with returned := after } } := by
  unfold checkReturned
  split
  · next expected hexpected =>
    refine .ite (fun _ => .mismatch) fun hfits => .pure ⟨s.frame.returned, ?_, rfl⟩
    rw [hexpected]
    refine .annotated ?_
    split <;> simp_all
  · next hreturns =>
    rw [hreturns]
    refine .get_bind ?_
    cases hreturned : s.frame.returned with
    | some previous =>
      refine .ite (fun _ => .mismatch) fun hkind => .pure ⟨some previous, ?_, by rw [← hreturned]⟩
      obtain rfl : previous = kind := by simpa using hkind
      exact .again
    | none => exact .modifyFrame ⟨some kind, .first, rfl⟩

end Headers

section Statements

variable {env : Env} {owner : Owner}

/-- A block has been resolved from `s` on. -/
structure ResolvedAll (env : Env) (returns : Option Kind) (s : State) (stmts stmts' : List Stmt)
    (s' : State) : Prop where
  proper : s'.frame.Proper
  rules : ∀ {signatures}, s'.functions.Fits signatures → ∃ readings,
    ResolvesAll ⟨env.table, signatures⟩ returns s.frame stmts stmts' s'.frame readings

def FromReadings (table : CallTable) (returns : Option Kind) (fr : Frame) (stmts : List Stmt) :
    Reason :=
  fun signatures name i kind => ∀ {stmts' fr' readings},
    ResolvesAll ⟨table, signatures⟩ returns fr stmts stmts' fr' readings →
      ∃ x ∈ readings, FromCall table x.scope x.expr.calls signatures name i kind

theorem checkStatement_runs (htable : env.table.Sound) {returns : Option Kind} {line : Nat}
    (value : Expr) {s : State} (hs : s.Proper) :
    Runs (FromReading env.table returns s.frame (.expr line value))
      (checkStatement env line value) s
      fun _ s' => Resolved env returns s (.expr line value) (.expr line value) s' := by
  have hreason : ∀ {signatures name i kind},
      FromCall env.table s.frame.scope value.calls signatures name i kind →
      FromReading env.table returns s.frame (.expr line value) signatures name i kind := by
    intro _ _ _ _ h
    refine FromReading.of_call h fun hresolves => ⟨⟨s.frame.scope, value⟩, ?_, rfl, rfl, rfl⟩
    cases hresolves with
    | call | expr => exact List.mem_singleton_self _
    | inert h => cases h
  unfold checkStatement
  split
  · next callee args =>
    refine .bind ((callKind_runs htable hs (exprKinds_runs (fun e _ => exprKind_runs htable e) s
      hs)).because fun {_} _ {_ _ _} => hreason) fun kind s' _ hcalled => .pure ?_
    refine ⟨hcalled.frame ▸ hs.frame.readAll _, fun {_} hfits => ?_⟩
    rw [hcalled.frame]
    exact ⟨_, .call (hcalled.stands hfits)⟩
  · refine .bind ((exprKind_runs htable value s hs).because fun {_} _ {_ _ _} => hreason)
      fun kind s' _ hvalue => .pure ?_
    refine ⟨hvalue.frame ▸ hs.frame.readAll _, fun {_} hfits => ?_⟩
    rw [hvalue.frame]
    exact ⟨_, .expr (hvalue.hasKind hfits)⟩

theorem Returned.returnable {returns before after : Option Kind} {kind : Kind}
    (h : Returned returns before kind after) (hbefore : ∀ k, before = some k → Returnable k)
    (hkind : Returnable kind) : ∀ k, after = some k → Returnable k := by
  cases h with
  | annotated => exact hbefore
  | first | again => exact fun k hk => Option.some.inj hk ▸ hkind

theorem inferReturn_runs (htable : env.table.Sound) (howner : env.owner = some owner) {line : Nat}
    (value : Option Expr) {s : State} (hs : s.Proper) :
    Runs (FromReading env.table owner.returns s.frame (.give line value))
      (inferReturn env value line) s
      fun _ s' => Resolved env owner.returns s (.give line value) (.give line value) s' := by
  have hafter : ∀ {s₁ : State} {kind : Kind}, s₁.frame.Proper → Returnable kind →
      (∀ {signatures after}, s₁.functions.Fits signatures →
        Returned owner.returns s₁.frame.returned kind after → ∃ readings,
          Resolves ⟨env.table, signatures⟩ owner.returns s.frame (.give line value)
            (.give line value) { s₁.frame with returned := after } readings) →
      Runs (FromReading env.table owner.returns s.frame (.give line value)) (do
        if owner.isEntry && kind ≠ .void then unsupported line (.entryReturnValue owner.name)
        checkReturned owner kind line) s₁
        fun _ s' => Resolved env owner.returns s (.give line value) (.give line value) s' := by
    intro s₁ kind hframe hkind hrules
    refine .check .unsupported fun _ => (checkReturned_runs kind).imp ?_
    rintro _ _ _ ⟨after, hreturned, rfl⟩
    exact ⟨⟨hframe.scope, hframe.hoisted, hreturned.returnable hframe.returned hkind⟩,
      fun {_} hfits => hrules hfits hreturned⟩
  unfold inferReturn givenKind
  simp only [howner]
  cases value with
  | none =>
    refine .bind (.pure (Q := fun kind s₁ => kind = .void ∧ s₁ = s) ⟨rfl, rfl⟩) ?_
    rintro _ _ _ ⟨rfl, rfl⟩
    exact hafter hs.frame (.inl rfl) fun _ hreturned => ⟨_, .bare hreturned⟩
  | some value =>
    refine .bind ((exprKind_runs htable value s hs).because fun {_} _ {_ _ _} h => ?_)
      fun kind s₁ _ hvalue => ?_
    · refine FromReading.of_call h fun hresolves => ⟨⟨s.frame.scope, value⟩, ?_, rfl, rfl, rfl⟩
      cases hresolves with
      | give => exact List.mem_singleton_self _
      | inert h => cases h
    · refine hafter (hvalue.frame ▸ hs.frame.readAll _)
        (.inr hvalue.scalar) fun hfits hreturned => ?_
      rw [hvalue.frame] at hreturned ⊢
      exact ⟨_, .give (hvalue.hasKind hfits) hreturned⟩

theorem shareGlobals_runs {reason : Reason} {line : Nat} (names : List String) (s : State) :
    Runs reason (shareGlobals line names) s fun _ s' => s'.functions = s.functions ∧
      s'.frame = s.frame.share names ∧ ∀ name ∈ names, s.frame.scope.isLocal name = false ∧
        ∃ kind, s.frame.scope.meaning name = .outer kind := by
  induction names generalizing s with
  | nil => exact .pure ⟨rfl, rfl, nofun⟩
  | cons name names ih =>
    unfold shareGlobals
    have hshare : Runs reason (shareGlobal name line) s fun _ s' =>
        s' = { s with frame := s.frame.share [name] } ∧ s.frame.scope.isLocal name = false ∧
          ∃ kind, s.frame.scope.meaning name = .outer kind := by
      unfold shareGlobal
      refine .getScope_bind (.check .unsupported fun hlocal => ?_)
      split
      · next kind hm => exact .modifyScope ⟨rfl, by simpa using hlocal, kind, hm⟩
      · exact .unbound
      · exact .unbound
      · exact .unbound
    refine .bind hshare ?_
    rintro _ _ _ ⟨rfl, hlocal, hm⟩
    refine (ih _).imp ?_
    rintro _ s' _ ⟨hfunctions, hframe, hnames⟩
    refine ⟨hfunctions, hframe, List.forall_mem_cons.mpr ⟨⟨hlocal, hm⟩, fun other hother => ?_⟩⟩
    obtain ⟨hlocal', kind, hm'⟩ := hnames other hother
    exact ⟨hlocal', kind, (Scope.meaning_share hlocal other).symm.trans hm'⟩

theorem ResolvedAll.nil {returns : Option Kind} {s : State} (hs : s.Proper) :
    ResolvedAll env returns s [] [] s :=
  ⟨hs.frame, fun _ => ⟨_, .nil⟩⟩

/-- From a rule that takes the frame to another, the resolution of a statement that ends there. -/
theorem Resolved.of_frame {returns : Option Kind} {s s' : State} {stmt stmt' : Stmt} {fr : Frame}
    (hframe : s'.frame = fr) (hproper : fr.Proper)
    (hrules : ∀ {signatures}, s'.functions.Fits signatures → ∃ readings,
      Resolves ⟨env.table, signatures⟩ returns s.frame stmt stmt' fr readings) :
    Resolved env returns s stmt stmt' s' :=
  ⟨hframe ▸ hproper, fun hfits => hframe ▸ hrules hfits⟩

theorem Resolved.inert {returns : Option Kind} {s : State} {stmt : Stmt} (hs : s.Proper)
    (hstmt : stmt.isInert = true) : Resolved env returns s stmt stmt s :=
  ⟨hs.frame, fun _ => ⟨_, .inert hstmt⟩⟩

theorem State.Proper.enter {s : State} (hs : s.Proper) :
    State.Proper { s with frame := s.frame.enter } :=
  ⟨hs.functions, hs.frame.scope, hs.frame.hoisted, hs.frame.returned⟩

theorem Frame.Proper.leave {fr : Frame} (h : fr.Proper) : fr.leave.Proper :=
  ⟨h.scope, h.hoisted, h.returned⟩

theorem Frame.Proper.afterLoop {fr : Frame} (h : fr.Proper) (var : String) (binding : Binding) :
    (fr.afterLoop var binding).Proper := by
  have hlocals : ∀ v ∈ (fr.scope.remove var).locals, v.2.kind.isStorable = true :=
    fun v hv => h.scope.locals v (List.mem_of_mem_filter hv)
  cases binding with
  | declare kind => exact ⟨⟨hlocals, h.scope.globals⟩, h.hoisted, h.returned⟩
  | reassign | unresolved => exact ⟨h.scope, h.hoisted, h.returned⟩

theorem Frame.Proper.share {fr : Frame} (h : fr.Proper) (names : List String) :
    (fr.share names).Proper := by
  refine ⟨?_, h.hoisted, h.returned⟩
  have hscope : ∀ s : Scope, s.Proper → (names.foldl Scope.share s).Proper := by
    induction names with
    | nil => exact fun _ hs => hs
    | cons name names ih => exact fun s hs => ih _ ⟨hs.locals, hs.globals⟩
  exact hscope fr.scope h.scope

mutual

/-- The inferencer resolves a statement by the rules, or fails with an error that is no broken
condition. -/
theorem inferStmt_runs (htable : env.table.Sound) (howner : env.owner = some owner) (stmt : Stmt)
    (hplain : stmt.isPlain = true) (s : State) (hs : s.Proper) :
    Runs (FromReading env.table owner.returns s.frame stmt) (inferStmt env stmt) s
      (Resolved env owner.returns s stmt) := by
  cases stmt with
  | function => cases hplain
  | assign line target value declared b =>
    unfold inferStmt
    cases target with
    | name id =>
      refine .bind ((assignName_runs htable hs).because fun {_} _ {_ _ _} h => ?_)
        fun _ _ _ h => .pure h
      refine FromReading.of_call h fun hresolves => ⟨⟨s.frame.scope, value⟩, ?_, rfl, rfl, rfl⟩
      cases hresolves with
      | again | first | hoist => exact List.mem_cons_self ..
      | inert h => cases h
    | element list position =>
      exact .bind (assignElement_runs htable hs) fun _ _ _ h => .pure h
  | conditional line condition thenBody elseBody =>
    simp only [Stmt.isPlain, Bool.and_eq_true] at hplain
    unfold inferStmt
    refine .bind ((checkCondition_runs line htable condition hs).because
      fun {_} _ {_ _ _} h => ?_) ?_
    · refine FromReading.of_call h fun hresolves => ⟨⟨s.frame.scope, condition⟩, ?_, rfl, rfl, rfl⟩
      cases hresolves with
      | conditional => exact List.mem_cons_self ..
      | inert h => cases h
    rintro _ s₁ heffect₁ ⟨hframe₁, hcondition⟩
    have hs₁ := hs.of_effect heffect₁ hframe₁
    refine .bind (.modifyFrame (Q := fun _ s₂ => s₂ = { s₁ with frame := s₁.frame.enter }) rfl) ?_
    rintro _ _ _ rfl
    refine .bind ((inferBlock_runs htable howner thenBody hplain.1 _ hs₁.enter).because
      fun {_} _ {_ _ _} h {_ _ _} hresolves => ?_) fun thenBody' s₂ heffect₂ hthen => ?_
    · rw [hframe₁] at h
      cases hresolves with
      | conditional _ _ hthen =>
        obtain ⟨x, hx, hcall⟩ := h hthen
        exact ⟨x, List.mem_cons_of_mem _ (List.mem_append_left _ hx), hcall⟩
      | inert h => cases h
    have hs₂ : s₂.Proper := ⟨heffect₂.proper hs₁.functions, hthen.proper⟩
    have hthen' : ∀ {signatures}, s₂.functions.Fits signatures → ∃ readings,
        ResolvesAll ⟨env.table, signatures⟩ owner.returns (s.frame.read condition).enter thenBody
          thenBody' s₂.frame readings := by
      rw [← hframe₁]
      exact hthen.rules
    refine .bind ((inferBlock_runs htable howner elseBody hplain.2 s₂ hs₂).because
      fun {_} hfits {_ _ _} h {_ _ _} hresolves => ?_) fun elseBody' s₃ heffect₃ helse => ?_
    · obtain ⟨_, hthen⟩ := hthen' hfits
      cases hresolves with
      | conditional _ _ hthen' helse =>
        obtain ⟨rfl, rfl, rfl⟩ := hthen.unique thenBody hthen'
        obtain ⟨x, hx, hcall⟩ := h helse
        exact ⟨x, List.mem_cons_of_mem _ (List.mem_append_right _ hx), hcall⟩
      | inert h => cases h
    refine .bind (.modifyFrame (Q := fun _ s₄ => s₄ = { s₃ with frame := s₃.frame.leave }) rfl) ?_
    rintro _ _ _ rfl
    refine .pure (.of_frame rfl helse.proper.leave fun {_} hfits => ?_)
    have hfits₂ := hfits.of_grows heffect₃.grows
    obtain ⟨_, hcondition, hkind⟩ := hcondition (hfits₂.of_grows heffect₂.grows)
    obtain ⟨_, hthen⟩ := hthen' hfits₂
    obtain ⟨_, helse⟩ := helse.rules hfits
    exact ⟨_, .conditional hcondition hkind hthen helse⟩
  | loop line var bounds b body =>
    unfold inferStmt
    refine .bind ((checkBounds_runs line htable bounds hs).because
      fun {_} _ {_ _ _} h {_ _ _} hresolves => ?_) ?_
    · obtain ⟨hbody, args, arg, hmem, hcall⟩ := h
      obtain ⟨e, he, hmem⟩ := Expr.mem_callsAll.mp hmem
      have hx : (⟨s.frame.scope, e⟩ : Reading) ∈ bounds.exprs.map (⟨s.frame.scope, ·⟩) :=
        List.mem_map_of_mem he
      cases hresolves with
      | loopAgain | loopFirst =>
        exact ⟨_, List.mem_append_left _ hx, hbody, args, arg, hmem, hcall⟩
      | inert h => cases h
    rintro _ s₁ heffect₁ ⟨hframe₁, hbounds⟩
    have hs₁ := hs.of_effect heffect₁ hframe₁
    refine .bind (bindLoopVar_runs var) ?_
    rintro binding s₂ heffect₂ ⟨hvar, hbinding⟩
    rw [hframe₁] at hvar
    -- the rules for the two kinds of loop variables, with the body still to be read
    have hrule : s₂.frame.Proper ∧ (∀ {signatures body' fr' r}, s₂.functions.Fits signatures →
        ResolvesAll ⟨env.table, signatures⟩ owner.returns
        (s₂.frame.enterLoop var) body body' fr' r →
        ∃ readings, Resolves ⟨env.table, signatures⟩ owner.returns s.frame
          (.loop line var bounds b body) (.loop line var bounds binding body')
          (fr'.afterLoop var binding) readings) ∧
        ∀ {signatures stmt' fr' readings}, Resolves ⟨env.table, signatures⟩ owner.returns s.frame
          (.loop line var bounds b body) stmt' fr' readings → ∃ body' fr'' r,
            ResolvesAll ⟨env.table, signatures⟩ owner.returns (s₂.frame.enterLoop var) body body'
              fr'' r ∧ r ⊆ readings := by
      rcases hbinding with ⟨hbound, rfl, rfl⟩ | ⟨hfree, rfl, rfl⟩
      · rw [hframe₁] at hbound ⊢
        rw [Frame.readAll, Scope.bound?_readAll] at hbound
        refine ⟨hs.frame.readAll _, fun {_ _ _ _} hfits hbody =>
          ⟨_, .loopAgain (hbounds hfits) hvar hbound hbody⟩, fun {_ _ _ _} hresolves => ?_⟩
        cases hresolves with
        | loopAgain _ _ _ hbody => exact ⟨_, _, _, hbody, by simp⟩
        | loopFirst _ _ hfree => exact absurd hbound hfree.ne_bound
        | inert h => cases h
      · rw [hframe₁] at hfree ⊢
        refine ⟨(hs.frame.readAll _).declare var line rfl, fun {_ _ _ _} hfits hbody =>
          ⟨_, .loopFirst (hbounds hfits) hvar hfree hbody⟩, fun {_ _ _ _} hresolves => ?_⟩
        cases hresolves with
        | loopAgain _ _ hbound => exact absurd hbound hfree.ne_bound
        | loopFirst _ _ _ hbody => exact ⟨_, _, _, hbody, by simp⟩
        | inert h => cases h
    obtain ⟨hproper₂, hrule, hinv⟩ := hrule
    refine .bind (.modifyFrame (Q := fun _ s₃ => s₃ = { s₂ with frame := s₂.frame.enter }) rfl) ?_
    rintro _ _ _ rfl
    refine .bind (.modifyFrame (Q := fun _ s₃ => s₃ = { s₂ with frame := s₂.frame.enterLoop var })
      rfl) ?_
    rintro _ _ _ rfl
    have hs₂ : State.Proper { s₂ with frame := s₂.frame.enterLoop var } :=
      ⟨heffect₂.proper hs₁.functions, hproper₂.scope, hproper₂.hoisted, hproper₂.returned⟩
    refine .bind ((inferBlock_runs htable howner body hplain _ hs₂).because
      fun {_} _ {_ _ _} h {_ _ _} hresolves => ?_) fun body' s₃ heffect₃ hbody => ?_
    · obtain ⟨_, _, _, hbody, hsub⟩ := hinv hresolves
      obtain ⟨x, hx, hcall⟩ := h hbody
      exact ⟨x, hsub hx, hcall⟩
    refine .bind (.modifyFrame (Q := fun _ s₄ => s₄ = { s₃ with
      frame := { s₃.frame with loopVars := s₃.frame.loopVars.tail } }) rfl) ?_
    rintro _ _ _ rfl
    refine .bind (.modifyFrame (Q := fun _ s₄ => s₄ = { s₃ with
      frame := s₃.frame.leaveLoop }) rfl) ?_
    rintro _ _ _ rfl
    have hrelease :
        Runs (FromReading env.table owner.returns s.frame (.loop line var bounds b body))
        (releaseLoopVar var binding) { s₃ with frame := s₃.frame.leaveLoop } fun _ s₄ =>
          s₄ = { s₃ with frame := s₃.frame.afterLoop var binding } := by
      unfold releaseLoopVar
      cases binding with
      | declare kind => exact .modifyScope rfl
      | reassign | unresolved => exact .pure rfl
    refine .bind hrelease ?_
    rintro _ _ _ rfl
    refine .pure (.of_frame rfl (hbody.proper.afterLoop var binding) fun {_} hfits => ?_)
    obtain ⟨_, hbody⟩ := hbody.rules hfits
    exact hrule (hfits.of_grows heffect₃.grows) hbody
  | expr line value =>
    unfold inferStmt
    exact .bind (checkStatement_runs htable value hs) fun _ _ _ h => .pure h
  | give line value =>
    unfold inferStmt
    exact .bind (inferReturn_runs htable howner value hs) fun _ _ _ h => .pure h
  | global line names =>
    unfold inferStmt
    refine .bind (shareGlobals_runs names s) ?_
    rintro _ s' _ ⟨_, hframe, hnames⟩
    exact .pure (.of_frame hframe (hs.frame.share names) fun {_} _ => ⟨_, .share hnames⟩)
  | comment | blank | pass | stop | skip =>
    unfold inferStmt
    exact .pure (.inert hs rfl)

theorem inferBlock_runs (htable : env.table.Sound) (howner : env.owner = some owner)
    (stmts : List Stmt) (hplain : arePlain stmts = true) (s : State) (hs : s.Proper) :
    Runs (FromReadings env.table owner.returns s.frame stmts) (inferBlock env stmts) s
      (ResolvedAll env owner.returns s stmts) := by
  cases stmts with
  | nil =>
    unfold inferBlock
    exact .pure (.nil hs)
  | cons stmt stmts =>
    simp only [arePlain, Bool.and_eq_true] at hplain
    unfold inferBlock
    refine .bind ((inferStmt_runs htable howner stmt hplain.1 s hs).because
      fun {_} _ {_ _ _} h {_ _ _} hresolves => ?_) fun stmt' s₁ heffect hhead => ?_
    · cases hresolves with
      | cons hhead =>
        obtain ⟨x, hx, hcall⟩ := h hhead
        exact ⟨x, List.mem_append_left _ hx, hcall⟩
    have hs₁ : s₁.Proper := ⟨heffect.proper hs.functions, hhead.proper⟩
    refine .bind ((inferBlock_runs htable howner stmts hplain.2 s₁ hs₁).because
      fun {_} hfits {_ _ _} h {_ _ _} hresolves => ?_) fun stmts' s₂ heffect' htail => .pure ?_
    · obtain ⟨_, hhead⟩ := hhead.rules hfits
      cases hresolves with
      | cons hhead' htail' =>
        obtain ⟨rfl, rfl, rfl⟩ := hhead.unique stmt hhead'
        obtain ⟨x, hx, hcall⟩ := h htail'
        exact ⟨x, List.mem_append_right _ hx, hcall⟩
    · refine ⟨htail.proper, fun {_} hfits => ?_⟩
      obtain ⟨_, hhead⟩ := hhead.rules (hfits.of_grows heffect'.grows)
      obtain ⟨_, htail⟩ := htail.rules hfits
      exact ⟨_, .cons hhead htail⟩

end

end Statements

end Inference

end Sketchwright
