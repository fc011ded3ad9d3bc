import Sketchwright.Proofs.Bodies

/-! The order in which inference comes to the names of a body. A visit is an expression with the
state in which a run of the inferencer turns to it; the rules of statements list the same
expressions, with scopes that give the same kinds. -/

namespace Sketchwright.Inference

/-- The state that an attempt leaves. -/
def after {α : Type} (x : Infer α) (s : State) : State := (endOf x s).2

theorem Ends.after_eq {α : Type} {x : Infer α} {s s' : State} {r : Except Stall α}
    (h : Ends x s r s') : after x s = s' := congrArg Prod.snd h

/-- An expression that the inferencer reads, or a name that it has just assigned, and the state at
that moment. -/
structure Visit where
  state : State
  expr : Expr

/-- The visits of a loop header. -/
def boundVisits (env : Env) (line : Nat) (bounds : Bounds) (s : State) : List Visit :=
  match bounds.start with
  | none => [⟨s, bounds.stop⟩]
  | some start => [⟨s, start⟩, ⟨after (checkBound env line start) s, bounds.stop⟩]

mutual

/-- The visits of a statement and of the statements in its blocks, when inference starts it in the
state `s`. -/
def visits (env : Env) (s : State) : Stmt → List Visit
  | .assign line (.name id) value declared _ =>
    [⟨s, value⟩, ⟨after (assignName env id value declared line) s, .name id⟩]
  | .assign line (.element list position) value _ _ =>
    let read := do
      let _ ← elementKind env list line
      exprKind env line position
    [⟨s, .index list position⟩, ⟨after read s, value⟩]
  | .conditional line condition thenBody elseBody =>
    let inner := after (do checkCondition env line condition; enterBlock) s
    ⟨s, condition⟩ :: (visitsAll env inner thenBody ++
      visitsAll env (after (inferBlock env thenBody) inner) elseBody)
  | .loop line var bounds _ body =>
    let bound := after (do checkBounds env line bounds; bindLoopVar var line) s
    let inner := after (do enterBlock; enterLoop var) bound
    boundVisits env line bounds s ++ ⟨bound, .name var⟩ :: visitsAll env inner body
  | .expr _ value => [⟨s, value⟩]
  | .give _ (some value) => [⟨s, value⟩]
  | _ => []

def visitsAll (env : Env) (s : State) : List Stmt → List Visit
  | [] => []
  | stmt :: stmts => visits env s stmt ++ visitsAll env (after (inferStmt env stmt) s) stmts

end

/-- A visit and a reading of the same expression in which names have the same kinds. -/
structure Sees (table : CallTable) (visit : Visit) (reading : Reading) : Prop where
  expr : visit.expr = reading.expr
  kinds : visit.state.frame.scope.kind? table = reading.scope.kind? table

section Runs

variable {env : Env} {owner : Owner} {s s' : State}

theorem sees_of_frame {e : Expr} {fr : Frame} (h : s.frame = fr) :
    Sees env.table ⟨s, e⟩ ⟨fr.scope, e⟩ := ⟨rfl, by rw [h]⟩

/-- The state after a name is assigned is the one in which the rules have it written. -/
theorem visits_assign (htable : env.table.Sound) {returns : Option Kind} {line : Nat} {id : String}
    {value : Expr} {declared : Option Kind} {b : Binding} (hs : s.Proper) {binding : Binding}
    (hends : Ends (assignName env id value declared line) s (.ok binding) s')
    {signatures : Signatures} (hfits : s'.functions.Fits signatures) {stmt' : Stmt} {fr : Frame}
    {readings : List Reading} (h : Resolves ⟨env.table, signatures⟩ returns s.frame
      (.assign line (.name id) value declared b) stmt' fr readings) :
    List.Forall₂ (Sees env.table) (visits env s (.assign line (.name id) value declared b))
      readings := by
  obtain ⟨_, hrules⟩ := ((assignName_runs (b := b) htable hs).ok hends).rules hfits
  obtain ⟨rfl, rfl, rfl⟩ := h.unique _ hrules
  simp only [visits, hends.after_eq]
  have hfirst : Sees env.table ⟨s, value⟩ ⟨s.frame.scope, value⟩ := ⟨rfl, rfl⟩
  generalize hfr : s'.frame = fr at h
  cases h with
  | again | first | hoist => exact .cons hfirst (.cons (sees_of_frame hfr) .nil)
  | inert h => cases h

theorem sees_of_readAll {e : Expr} {fr : Frame} {names : List String}
    (h : s.frame = fr.readAll names) : Sees env.table ⟨s, e⟩ ⟨fr.scope, e⟩ :=
  ⟨rfl, by rw [h]; exact Scope.kind?_readAll _ _ _⟩

theorem boundVisits_sees (htable : env.table.Sound) {line : Nat} {bounds : Bounds} (hs : s.Proper)
    (hends : Ends (checkBounds env line bounds) s (.ok ()) s') :
    List.Forall₂ (Sees env.table) (boundVisits env line bounds s)
      (bounds.exprs.map (⟨s.frame.scope, ·⟩)) := by
  obtain ⟨start, stop, step⟩ := bounds
  cases start with
  | none => exact .cons ⟨rfl, rfl⟩ .nil
  | some start =>
    simp only [checkBounds, ends_bind_ok] at hends
    obtain ⟨_, s₁, hstart, _⟩ := hends
    have hframe := ((checkBound_runs htable start hs (Frame.readAll_nil s.frame).symm
      (List.Subset.refl _)).ok hstart).1
    simp only [boundVisits, hstart.after_eq]
    exact .cons ⟨rfl, rfl⟩ (.cons (sees_of_readAll hframe) .nil)

theorem releaseLoopVar_functions {var : String} {binding : Binding} {r : Except Stall Unit}
    (h : Ends (releaseLoopVar var binding) s r s') : s'.functions = s.functions := by
  unfold releaseLoopVar at h
  split at h
  · obtain ⟨_, rfl⟩ := ends_modifyScope.mp h
    rfl
  · obtain ⟨_, rfl⟩ := ends_pure.mp h
    rfl

mutual

/-- The visits of a statement are the readings that the rules list. -/
theorem visits_sees (htable : env.table.Sound) (howner : env.owner = some owner) (stmt : Stmt)
    (hplain : stmt.isPlain = true) {s s' : State} (hs : s.Proper) {found : Stmt}
    (hends : Ends (inferStmt env stmt) s (.ok found) s') {signatures : Signatures}
    (hfits : s'.functions.Fits signatures) {stmt' : Stmt} {fr : Frame} {readings : List Reading}
    (h : Resolves ⟨env.table, signatures⟩ owner.returns s.frame stmt stmt' fr readings) :
    List.Forall₂ (Sees env.table) (visits env s stmt) readings := by
  cases stmt with
  | function => cases hplain
  | assign line target value declared b =>
    simp only [inferStmt, ends_bind_ok] at hends
    obtain ⟨binding, s₁, hends, hrest⟩ := hends
    obtain ⟨_, rfl⟩ := ends_pure.mp hrest
    cases target with
    | name id => exact visits_assign htable hs hends hfits h
    | element list position =>
      cases h with
      | element hbody =>
        simp only [assignTarget, assignElement, ends_bind_ok, ends_getScope] at hends
        obtain ⟨_, s₀, ⟨hscope, hs₀⟩, hends⟩ := hends
        cases hscope
        rw [hs₀, if_neg (by simp [hbody])] at hends
        obtain ⟨element, s₁, helement, hends⟩ := ends_bind_ok.mp hends
        obtain ⟨index, s₂, hindex, _⟩ := ends_bind_ok.mp hends
        have hfirst : Runs (FromCall env.table s.frame.scope position.calls)
            (elementKind env list line) s _ := elementKind_runs env list line
        have hframe₁ := (hfirst.ok helement).1
        have heffect := hfirst.effect helement
        have hframe :=
          (((exprKind_runs htable position).after (hs.of_effect heffect hframe₁) hframe₁
          (List.Subset.refl _)).ok hindex).1
        have hread : Ends (do let _ ← elementKind env list line; exprKind env line position) s
            (.ok index) s₂ := ends_bind_ok.mpr ⟨element, s₁, helement, hindex⟩
        simp only [visits, hread.after_eq]
        exact .cons ⟨rfl, rfl⟩ (.cons (sees_of_frame hframe) .nil)
      | inert h => cases h
  | conditional line condition thenBody elseBody =>
    simp only [Stmt.isPlain, Bool.and_eq_true] at hplain
    simp only [inferStmt, ends_bind_ok] at hends
    obtain ⟨_, s₁, hcondition, _, s₂, henter, thenBody₁, s₃, hthen, elseBody₁, s₄, helse,
      _, s₅, hleave, hrest⟩ := hends
    obtain ⟨_, rfl⟩ := ends_pure.mp hrest
    obtain ⟨_, rfl⟩ := ends_modifyFrame.mp hleave
    have hinner : Ends (do checkCondition env line condition; enterBlock) s (.ok ()) s₂ :=
      ends_bind_ok.mpr ⟨_, s₁, hcondition, henter⟩
    obtain ⟨_, rfl⟩ := ends_modifyFrame.mp henter
    have hruns := checkCondition_runs line htable condition hs
    have hframe₁ := (hruns.ok hcondition).1
    have hs₁ := hs.of_effect (hruns.effect hcondition) hframe₁
    have hruns₂ := inferBlock_runs htable howner thenBody hplain.1 _ hs₁.enter
    have hresolved₂ := hruns₂.ok hthen
    have hs₃ : s₃.Proper := ⟨(hruns₂.effect hthen).proper hs₁.functions, hresolved₂.proper⟩
    have hfits₃ := hfits.of_grows
      ((inferBlock_runs htable howner elseBody hplain.2 s₃ hs₃).effect helse).grows
    obtain ⟨_, hrules⟩ := hresolved₂.rules hfits₃
    simp only [visits, hinner.after_eq, hthen.after_eq]
    cases h with
    | conditional _ _ hthen' helse' =>
      rw [← hframe₁] at hthen'
      obtain ⟨rfl, rfl, rfl⟩ := hrules.unique thenBody hthen'
      exact .cons ⟨rfl, rfl⟩ (List.rel_append
        (visitsAll_sees htable howner thenBody hplain.1 hs₁.enter hthen hfits₃ hthen')
        (visitsAll_sees htable howner elseBody hplain.2 hs₃ helse hfits helse'))
    | inert h => cases h
  | loop line var bounds b body =>
    simp only [inferStmt, ends_bind_ok] at hends
    obtain ⟨_, s₁, hbounds, binding, s₂, hbind, _, s₃, henter, _, s₄, hloop, body₁,
      s₅, hbody, _, s₆, hleave, _, s₇, hleave', _, s₈, hrelease, hrest⟩ := hends
    obtain ⟨_, rfl⟩ := ends_pure.mp hrest
    have hbound : Ends (do checkBounds env line bounds; bindLoopVar var line) s (.ok binding) s₂ :=
      ends_bind_ok.mpr ⟨_, s₁, hbounds, hbind⟩
    have hinner : Ends (do enterBlock; enterLoop var) s₂ (.ok ()) s₄ :=
      ends_bind_ok.mpr ⟨_, s₃, henter, hloop⟩
    obtain ⟨_, rfl⟩ := ends_modifyFrame.mp henter
    obtain ⟨_, rfl⟩ := ends_modifyFrame.mp hloop
    have hruns := checkBounds_runs line htable bounds hs
    have hframe₁ := (hruns.ok hbounds).1
    have hs₁ := hs.of_effect (hruns.effect hbounds) hframe₁
    obtain ⟨_, rfl⟩ := ends_modifyFrame.mp hleave
    obtain ⟨_, rfl⟩ := ends_modifyFrame.mp hleave'
    have hfits₅ : s₅.functions.Fits signatures := by
      rw [releaseLoopVar_functions hrelease] at hfits
      exact hfits
    have hbind' : Runs (FromCall env.table s.frame.scope (Expr.callsAll bounds.exprs))
        (bindLoopVar var line) s₁ _ := bindLoopVar_runs var
    simp only [visits, hbound.after_eq, hinner.after_eq]
    have hfirst := boundVisits_sees htable hs hbounds
    obtain ⟨_, ⟨hbound?, rfl, rfl⟩ | ⟨hfree, rfl, rfl⟩⟩ := hbind'.ok hbind
    · have hs₄ : State.Proper { s₂ with frame := s₂.frame.enterLoop var } :=
        ⟨hs₁.functions, hs₁.frame.scope, hs₁.frame.hoisted, hs₁.frame.returned⟩
      cases h with
      | loopAgain _ _ _ hbody' =>
        refine List.rel_append hfirst (.cons (sees_of_frame hframe₁) ?_)
        rw [← hframe₁] at hbody'
        exact visitsAll_sees htable howner body hplain hs₄ hbody hfits₅ hbody'
      | loopFirst _ _ hfree' =>
        rw [hframe₁, Frame.readAll, Scope.bound?_readAll] at hbound?
        exact absurd hbound? hfree'.ne_bound
      | inert h => cases h
    · have hint : Kind.int.isStorable = true := rfl
      have hproper := hs₁.frame.declare var line hint
      have hs₄ : State.Proper { s₁ with frame := (s₁.frame.declare var .int line).enterLoop var } :=
        ⟨hs₁.functions, hproper.scope, hproper.hoisted, hproper.returned⟩
      rw [hframe₁] at hfree
      cases h with
      | loopAgain _ _ hbound => exact absurd hbound hfree.ne_bound
      | loopFirst _ _ _ hbody' =>
        refine List.rel_append hfirst (.cons (sees_of_frame (by rw [hframe₁])) ?_)
        rw [← hframe₁] at hbody'
        exact visitsAll_sees htable howner body hplain hs₄ hbody hfits₅ hbody'
      | inert h => cases h
  | expr line value =>
    cases h with
    | call | expr => exact .cons ⟨rfl, rfl⟩ .nil
    | inert h => cases h
  | give line value =>
    cases h with
    | give => exact .cons ⟨rfl, rfl⟩ .nil
    | bare => exact .nil
    | inert h => cases h
  | global line names =>
    cases h with
    | share => exact .nil
    | inert h => cases h
  | comment | blank | pass | stop | skip =>
    cases h with
    | inert => exact .nil

theorem visitsAll_sees (htable : env.table.Sound) (howner : env.owner = some owner)
    (stmts : List Stmt) (hplain : arePlain stmts = true) {s s' : State} (hs : s.Proper)
    {found : List Stmt} (hends : Ends (inferBlock env stmts) s (.ok found) s')
    {signatures : Signatures} (hfits : s'.functions.Fits signatures) {stmts' : List Stmt}
    {fr : Frame} {readings : List Reading}
    (h : ResolvesAll ⟨env.table, signatures⟩ owner.returns s.frame stmts stmts' fr readings) :
    List.Forall₂ (Sees env.table) (visitsAll env s stmts) readings := by
  cases stmts with
  | nil =>
    cases h
    exact .nil
  | cons stmt stmts =>
    simp only [arePlain, Bool.and_eq_true] at hplain
    simp only [inferBlock, ends_bind_ok] at hends
    obtain ⟨stmt₁, s₁, hhead, stmts₁, s₂, htail, hrest⟩ := hends
    obtain ⟨_, rfl⟩ := ends_pure.mp hrest
    have hruns := inferStmt_runs htable howner stmt hplain.1 s hs
    have hresolved := hruns.ok hhead
    have hs₁ : s₁.Proper := ⟨(hruns.effect hhead).proper hs.functions, hresolved.proper⟩
    have hfits₁ := hfits.of_grows
      ((inferBlock_runs htable howner stmts hplain.2 s₁ hs₁).effect htail).grows
    obtain ⟨_, hrules⟩ := hresolved.rules hfits₁
    cases h with
    | cons hhead' htail' =>
      obtain ⟨rfl, rfl, rfl⟩ := hrules.unique stmt hhead'
      simp only [visitsAll, hhead.after_eq]
      exact List.rel_append (visits_sees htable howner stmt hplain.1 hs hhead hfits₁ hhead')
        (visitsAll_sees htable howner stmts hplain.2 hs₁ htail hfits htail')

end

end Runs

end Sketchwright.Inference
